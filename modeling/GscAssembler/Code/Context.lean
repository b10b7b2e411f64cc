/-!
# Evaluation contexts

An expression is lowered differently as a value, as the target of an assignment, as a variable bound
by a wait, or as a call whose result is dropped.  A `Context` is the set of such conditions, one bit
each.
-/

namespace GscAssembler.Code

/-- The conditions under which an expression is lowered. -/
structure Context where
  /-- One bit for each condition. -/
  bits : UInt8
  deriving DecidableEq, Repr

namespace Context

/-- No condition: the expression is evaluated for its value. -/
def plain : Context := ⟨0⟩
/-- A reference is wanted, for an assignment or a field access. -/
def isRef : Context := ⟨1⟩
/-- Identifiers are bound from the payload of an awaited event. -/
def waittill : Context := ⟨2⟩
/-- The call starts a thread. -/
def threaded : Context := ⟨4⟩
/-- The call is a method of an object. -/
def hasCaller : Context := ⟨8⟩
/-- The result is dropped. -/
def decTop : Context := ⟨16⟩
/-- The call goes through a function pointer. -/
def isPointer : Context := ⟨32⟩

/-- Whether all conditions of `other` hold. -/
def has (c other : Context) : Bool :=
  c.bits &&& other.bits == other.bits

/-- The conditions of both. -/
def adding (c other : Context) : Context :=
  ⟨c.bits ||| other.bits⟩

/-- The conditions without those of `other`. -/
def without (c other : Context) : Context :=
  ⟨c.bits &&& ~~~other.bits⟩

end Context

end GscAssembler.Code
