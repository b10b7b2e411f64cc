/-!
# Opcodes

The operations of both machines.  The legacy machine knows those up to `notifyBreakpoint`; the newer
one adds the rest.  An opcode is encoded as its position in this list.
-/

namespace GscAssembler.Code

/-- An operation of one of the script machines. -/
inductive Opcode where
  | endFunction | returnValue | getUndefined | getZero | getByte | getNegByte | getUnsignedShort
  | getNegUnsignedShort | getInteger | getFloat | getString | getIString | getVector
  | getLevelObject | getAnimObject | getSelf | getLevel | getGame | getAnim | getAnimation
  | getGameRef | getFunction | createLocalVariable | safeCreateLocalVariables
  | removeLocalVariables | evalLocalVariableCached | evalArray | evalLocalArrayRefCached
  | evalArrayRef | clearArray | getEmptyArray | getSelfObject | evalFieldVariable
  | evalFieldVariableRef | clearFieldVariable | safeSetVariableFieldCached
  | setWaittillVariableFieldCached | clearParams | checkClearParams | evalLocalVariableRefCached
  | setVariableField | callBuiltin | callBuiltinMethod | wait | waitTillFrameEnd | preScriptCall
  | scriptFunctionCall | scriptFunctionCallPointer | scriptMethodCall | scriptMethodCallPointer
  | scriptThreadCall | scriptThreadCallPointer | scriptMethodThreadCall
  | scriptMethodThreadCallPointer | decTop | castFieldObject | castBool | boolNot
  | boolComplement | jumpOnFalse | jumpOnTrue | jumpOnFalseExpr | jumpOnTrueExpr | jump
  | jumpBack | inc | dec | bitOr | bitXor | bitAnd | equal | notEqual | lessThan | greaterThan
  | lessThanOrEqualTo | greaterThanOrEqualTo | shiftLeft | shiftRight | plus | minus | multiply
  | divide | modulus | sizeOf | waitTillMatch | waitTill | notify | endOn | voidCodePos
  | switchOn | endSwitch | vector | getHash | realWait | vectorConstant | isDefined | vectorScale
  | anglesToUp | anglesToRight | anglesToForward | angleClamp180 | vectorToAngles | absolute
  | getTime | getDvar | getDvarInt | getDvarFloat | getDvarVector | getDvarColorRed
  | getDvarColorGreen | getDvarColorBlue | getDvarColorAlpha | firstArrayKey | nextArrayKey
  | profileStart | profileStop | safeDecTop | nop | abort | obj | threadObject
  | evalLocalVariable | evalLocalVariableRef | devblockBegin | devblockEnd | breakpoint
  | autoBreakpoint | errorBreakpoint | watchBreakpoint | notifyBreakpoint | getObjectType
  | waitRealTime | getWorldObject | getClassesObject | classFunctionCall | bitNot | getWorld
  | evalLevelFieldVariable | evalLevelFieldVariableRef | evalSelfFieldVariable
  | evalSelfFieldVariableRef | superEqual | superNotEqual | getUnsignedInteger | getGlobalObject
  | getGlobalObjectRef | evalLocalVariableRefCached2 | evalLocalVariableDefined
  | firstArrayKeyCached | setNextArrayKeyCached | setLocalVariableCached
  | evalFieldVariableOnStack | evalFieldVariableOnStackRef | castVariableName
  | castAndEvalFieldVariable | getApiFunction | endOnCallback | waittillTimeout
  deriving DecidableEq, Repr

namespace Opcode

/-- All opcodes in the order of their values. -/
def all : Array Opcode := #[
  .endFunction, .returnValue, .getUndefined, .getZero, .getByte, .getNegByte, .getUnsignedShort,
  .getNegUnsignedShort, .getInteger, .getFloat, .getString, .getIString, .getVector,
  .getLevelObject, .getAnimObject, .getSelf, .getLevel, .getGame, .getAnim, .getAnimation,
  .getGameRef, .getFunction, .createLocalVariable, .safeCreateLocalVariables,
  .removeLocalVariables, .evalLocalVariableCached, .evalArray, .evalLocalArrayRefCached,
  .evalArrayRef, .clearArray, .getEmptyArray, .getSelfObject, .evalFieldVariable,
  .evalFieldVariableRef, .clearFieldVariable, .safeSetVariableFieldCached,
  .setWaittillVariableFieldCached, .clearParams, .checkClearParams, .evalLocalVariableRefCached,
  .setVariableField, .callBuiltin, .callBuiltinMethod, .wait, .waitTillFrameEnd, .preScriptCall,
  .scriptFunctionCall, .scriptFunctionCallPointer, .scriptMethodCall, .scriptMethodCallPointer,
  .scriptThreadCall, .scriptThreadCallPointer, .scriptMethodThreadCall,
  .scriptMethodThreadCallPointer, .decTop, .castFieldObject, .castBool, .boolNot,
  .boolComplement, .jumpOnFalse, .jumpOnTrue, .jumpOnFalseExpr, .jumpOnTrueExpr, .jump,
  .jumpBack, .inc, .dec, .bitOr, .bitXor, .bitAnd, .equal, .notEqual, .lessThan, .greaterThan,
  .lessThanOrEqualTo, .greaterThanOrEqualTo, .shiftLeft, .shiftRight, .plus, .minus, .multiply,
  .divide, .modulus, .sizeOf, .waitTillMatch, .waitTill, .notify, .endOn, .voidCodePos,
  .switchOn, .endSwitch, .vector, .getHash, .realWait, .vectorConstant, .isDefined, .vectorScale,
  .anglesToUp, .anglesToRight, .anglesToForward, .angleClamp180, .vectorToAngles, .absolute,
  .getTime, .getDvar, .getDvarInt, .getDvarFloat, .getDvarVector, .getDvarColorRed,
  .getDvarColorGreen, .getDvarColorBlue, .getDvarColorAlpha, .firstArrayKey, .nextArrayKey,
  .profileStart, .profileStop, .safeDecTop, .nop, .abort, .obj, .threadObject,
  .evalLocalVariable, .evalLocalVariableRef, .devblockBegin, .devblockEnd, .breakpoint,
  .autoBreakpoint, .errorBreakpoint, .watchBreakpoint, .notifyBreakpoint, .getObjectType,
  .waitRealTime, .getWorldObject, .getClassesObject, .classFunctionCall, .bitNot, .getWorld,
  .evalLevelFieldVariable, .evalLevelFieldVariableRef, .evalSelfFieldVariable,
  .evalSelfFieldVariableRef, .superEqual, .superNotEqual, .getUnsignedInteger, .getGlobalObject,
  .getGlobalObjectRef, .evalLocalVariableRefCached2, .evalLocalVariableDefined,
  .firstArrayKeyCached, .setNextArrayKeyCached, .setLocalVariableCached,
  .evalFieldVariableOnStack, .evalFieldVariableOnStackRef, .castVariableName,
  .castAndEvalFieldVariable, .getApiFunction, .endOnCallback, .waittillTimeout]

/-- The value an opcode is encoded with. -/
def value (op : Opcode) : Nat :=
  op.ctorIdx

/-- The opcode with a given value. -/
def ofValue? (value : Nat) : Option Opcode :=
  all[value]?

/-- The name an opcode is listed under. -/
def name : Opcode → String
  | .endFunction => "End" | .returnValue => "Return" | .getUndefined => "GetUndefined"
  | .getZero => "GetZero" | .getByte => "GetByte" | .getNegByte => "GetNegByte"
  | .getUnsignedShort => "GetUnsignedShort" | .getNegUnsignedShort => "GetNegUnsignedShort"
  | .getInteger => "GetInteger" | .getFloat => "GetFloat" | .getString => "GetString"
  | .getIString => "GetIString" | .getVector => "GetVector" | .getLevelObject => "GetLevelObject"
  | .getAnimObject => "GetAnimObject" | .getSelf => "GetSelf" | .getLevel => "GetLevel"
  | .getGame => "GetGame" | .getAnim => "GetAnim" | .getAnimation => "GetAnimation"
  | .getGameRef => "GetGameRef" | .getFunction => "GetFunction"
  | .createLocalVariable => "CreateLocalVariable"
  | .safeCreateLocalVariables => "SafeCreateLocalVariables"
  | .removeLocalVariables => "RemoveLocalVariables"
  | .evalLocalVariableCached => "EvalLocalVariableCached" | .evalArray => "EvalArray"
  | .evalLocalArrayRefCached => "EvalLocalArrayRefCached" | .evalArrayRef => "EvalArrayRef"
  | .clearArray => "ClearArray" | .getEmptyArray => "GetEmptyArray"
  | .getSelfObject => "GetSelfObject" | .evalFieldVariable => "EvalFieldVariable"
  | .evalFieldVariableRef => "EvalFieldVariableRef" | .clearFieldVariable => "ClearFieldVariable"
  | .safeSetVariableFieldCached => "SafeSetVariableFieldCached"
  | .setWaittillVariableFieldCached => "SetWaittillVariableFieldCached"
  | .clearParams => "ClearParams" | .checkClearParams => "CheckClearParams"
  | .evalLocalVariableRefCached => "EvalLocalVariableRefCached"
  | .setVariableField => "SetVariableField" | .callBuiltin => "CallBuiltin"
  | .callBuiltinMethod => "CallBuiltinMethod" | .wait => "Wait"
  | .waitTillFrameEnd => "WaitTillFrameEnd" | .preScriptCall => "PreScriptCall"
  | .scriptFunctionCall => "ScriptFunctionCall"
  | .scriptFunctionCallPointer => "ScriptFunctionCallPointer"
  | .scriptMethodCall => "ScriptMethodCall"
  | .scriptMethodCallPointer => "ScriptMethodCallPointer"
  | .scriptThreadCall => "ScriptThreadCall"
  | .scriptThreadCallPointer => "ScriptThreadCallPointer"
  | .scriptMethodThreadCall => "ScriptMethodThreadCall"
  | .scriptMethodThreadCallPointer => "ScriptMethodThreadCallPointer" | .decTop => "DecTop"
  | .castFieldObject => "CastFieldObject" | .castBool => "CastBool" | .boolNot => "BoolNot"
  | .boolComplement => "BoolComplement" | .jumpOnFalse => "JumpOnFalse"
  | .jumpOnTrue => "JumpOnTrue" | .jumpOnFalseExpr => "JumpOnFalseExpr"
  | .jumpOnTrueExpr => "JumpOnTrueExpr" | .jump => "Jump" | .jumpBack => "JumpBack"
  | .inc => "Inc" | .dec => "Dec" | .bitOr => "Bit_Or" | .bitXor => "Bit_Xor"
  | .bitAnd => "Bit_And" | .equal => "Equal" | .notEqual => "NotEqual" | .lessThan => "LessThan"
  | .greaterThan => "GreaterThan" | .lessThanOrEqualTo => "LessThanOrEqualTo"
  | .greaterThanOrEqualTo => "GreaterThanOrEqualTo" | .shiftLeft => "ShiftLeft"
  | .shiftRight => "ShiftRight" | .plus => "Plus" | .minus => "Minus" | .multiply => "Multiply"
  | .divide => "Divide" | .modulus => "Modulus" | .sizeOf => "SizeOf"
  | .waitTillMatch => "WaitTillMatch" | .waitTill => "WaitTill" | .notify => "Notify"
  | .endOn => "EndOn" | .voidCodePos => "VoidCodePos" | .switchOn => "Switch"
  | .endSwitch => "EndSwitch" | .vector => "Vector" | .getHash => "GetHash"
  | .realWait => "RealWait" | .vectorConstant => "VectorConstant" | .isDefined => "IsDefined"
  | .vectorScale => "VectorScale" | .anglesToUp => "AnglesToUp"
  | .anglesToRight => "AnglesToRight" | .anglesToForward => "AnglesToForward"
  | .angleClamp180 => "AngleClamp180" | .vectorToAngles => "VectorToAngles" | .absolute => "Abs"
  | .getTime => "GetTime" | .getDvar => "GetDvar" | .getDvarInt => "GetDvarInt"
  | .getDvarFloat => "GetDvarFloat" | .getDvarVector => "GetDvarVector"
  | .getDvarColorRed => "GetDvarColorRed" | .getDvarColorGreen => "GetDvarColorGreen"
  | .getDvarColorBlue => "GetDvarColorBlue" | .getDvarColorAlpha => "GetDvarColorAlpha"
  | .firstArrayKey => "FirstArrayKey" | .nextArrayKey => "NextArrayKey"
  | .profileStart => "ProfileStart" | .profileStop => "ProfileStop" | .safeDecTop => "SafeDecTop"
  | .nop => "Nop" | .abort => "Abort" | .obj => "Obj" | .threadObject => "ThreadObject"
  | .evalLocalVariable => "EvalLocalVariable" | .evalLocalVariableRef => "EvalLocalVariableRef"
  | .devblockBegin => "DevblockBegin" | .devblockEnd => "DevblockEnd"
  | .breakpoint => "Breakpoint" | .autoBreakpoint => "AutoBreakpoint"
  | .errorBreakpoint => "ErrorBreakpoint" | .watchBreakpoint => "WatchBreakpoint"
  | .notifyBreakpoint => "NotifyBreakpoint" | .getObjectType => "GetObjectType"
  | .waitRealTime => "WaitRealTime" | .getWorldObject => "GetWorldObject"
  | .getClassesObject => "GetClassesObject" | .classFunctionCall => "ClassFunctionCall"
  | .bitNot => "Bit_Not" | .getWorld => "GetWorld"
  | .evalLevelFieldVariable => "EvalLevelFieldVariable"
  | .evalLevelFieldVariableRef => "EvalLevelFieldVariableRef"
  | .evalSelfFieldVariable => "EvalSelfFieldVariable"
  | .evalSelfFieldVariableRef => "EvalSelfFieldVariableRef" | .superEqual => "SuperEqual"
  | .superNotEqual => "SuperNotEqual" | .getUnsignedInteger => "GetUnsignedInteger"
  | .getGlobalObject => "GetGlobalObject" | .getGlobalObjectRef => "GetGlobalObjectRef"
  | .evalLocalVariableRefCached2 => "EvalLocalVariableRefCached2"
  | .evalLocalVariableDefined => "EvalLocalVariableDefined"
  | .firstArrayKeyCached => "FirstArrayKeyCached"
  | .setNextArrayKeyCached => "SetNextArrayKeyCached"
  | .setLocalVariableCached => "SetLocalVariableCached"
  | .evalFieldVariableOnStack => "EvalFieldVariableOnStack"
  | .evalFieldVariableOnStackRef => "EvalFieldVariableOnStackRef"
  | .castVariableName => "CastVariableName"
  | .castAndEvalFieldVariable => "CastAndEvalFieldVariable" | .getApiFunction => "GetAPIFunction"
  | .endOnCallback => "EndOnCallback" | .waittillTimeout => "WaittillTimeout"

/-- The opcode listed under a name. -/
def ofName? (name : String) : Option Opcode :=
  all.find? fun op => op.name == name

/-- Whether the operation is a jump, with or without a condition. -/
def isJump : Opcode → Bool
  | .jump | .jumpOnFalse | .jumpOnTrue | .jumpOnFalseExpr | .jumpOnTrueExpr => true
  | _ => false

end Opcode

end GscAssembler.Code
