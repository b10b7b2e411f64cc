import GscAssembler.Proofs.Lowering.QuietTasks

/-!
# Plans of trees with names replaced

`substitute` puts trees in the places of names.  A tree that stands for a name is put in parentheses,
which keep the text of the name: a loop over an array still finds the names of its variables.

A step of the machine does not look behind the nodes it plans.  So a step on a tree is matched by the
same step on the tree with names replaced (`Matches`): it has the same effect, and plans the same tasks
with names replaced.  All that this takes is that names keep their texts and everything else keeps its
kind (`Replacement`).  Only an object is looked at more closely, because it may be a builtin one.
-/

namespace GscAssembler.Lowering

open Code (BuiltinObject Context ForeachLocals Key Opcode)
open Reference (ImportKey)
open SyntaxTree (Node)
open Text (asciiLower)

variable {α : Type} {n : Node}

/-! ## Replacing names -/

/-- The tree that stands for a node, if the node is a name that has a meaning. -/
def meant? (meaning : String → Option Node) (n : Node) : Option Node :=
  if n.is "identifier" then n.text?.bind fun text => meaning (asciiLower text) else none

mutual

/-- A tree with the meanings of its names in their places. -/
def substitute (meaning : String → Option Node) : Node → Node
  | .mk kind text value children =>
      match meant? meaning (.mk kind text value children) with
      | some expression => .mk "parenExpr" text value [expression]
      | none => .mk kind text value (substituteAll meaning children)

/-- Several trees with the meanings of their names in their places. -/
def substituteAll (meaning : String → Option Node) : List Node → List Node
  | [] => []
  | n :: rest => substitute meaning n :: substituteAll meaning rest

end

/-- A node with its children replaced. -/
def mapChildren (f : Node → Node) (n : Node) : Node :=
  .mk n.kind n.text? n.value? (n.children.map f)

section Substitute

variable {meaning : String → Option Node} {expression : Node}

theorem substituteAll_eq_map (nodes : List Node) :
    substituteAll meaning nodes = nodes.map (substitute meaning) := by
  induction nodes with
  | nil => rfl
  | cons n rest ih => rw [substituteAll, ih, List.map_cons]

theorem substitute_of_none (h : meant? meaning n = none) :
    substitute meaning n = mapChildren (substitute meaning) n := by
  cases n with
  | mk kind text value children =>
      rw [substitute, h, substituteAll_eq_map]
      rfl

theorem substitute_of_some (h : meant? meaning n = some expression) :
    substitute meaning n = .mk "parenExpr" n.text? n.value? [expression] := by
  cases n with
  | mk kind text value children =>
      rw [substitute, h]
      rfl

theorem text_of_meant? (h : meant? meaning n = some expression) :
    n.kind = "identifier" ∧ ∃ text, n.text? = some text := by
  unfold meant? at h
  split at h
  case isTrue hn =>
      obtain ⟨text, htext, -⟩ := Option.bind_eq_some_iff.mp h
      exact ⟨eq_of_beq hn, text, htext⟩
  case isFalse => cases h

end Substitute

/-- What steps need to know of a replacement of nodes: texts are kept, names may come to stand in
parentheses, and of all other nodes only the children are replaced. -/
class Replacement (f : Node → Node) : Prop where
  /-- Texts are kept. -/
  text (n : Node) : (f n).text = n.text
  /-- Kinds are kept, but for those of names. -/
  is (n : Node) {kind : String} : kind ≠ "identifier" → kind ≠ "parenExpr" → (f n).is kind = n.is kind
  /-- Only names are replaced themselves. -/
  inside (n : Node) : ¬n.is "identifier" → f n = mapChildren f n

instance (meaning : String → Option Node) : Replacement (substitute meaning) where
  text n := by
    cases hmeant : meant? meaning n with
    | none => rw [substitute_of_none hmeant]; rfl
    | some expression =>
        obtain ⟨-, text, htext⟩ := text_of_meant? hmeant
        rw [substitute_of_some hmeant, Node.text, Node.text, Node.text?, htext]
  is n kind hname hparen := by
    cases hmeant : meant? meaning n with
    | none => rw [substitute_of_none hmeant]; rfl
    | some expression =>
        rw [substitute_of_some hmeant, Node.is, Node.is, (text_of_meant? hmeant).1, Node.kind,
          beq_false_of_ne hname.symm, beq_false_of_ne hparen.symm]
  inside n hn := substitute_of_none (if_neg hn)

variable {f : Node → Node}

theorem kind_mapChildren : (mapChildren f n).kind = n.kind := rfl

@[simp] theorem children_mapChildren : (mapChildren f n).children = n.children.map f := rfl

@[simp] theorem is_mapChildren {kind : String} : (mapChildren f n).is kind = n.is kind := rfl

theorem child_mapChildren {position : Nat} :
    (mapChildren f n).child position = (n.child position).map f := by
  unfold Node.child
  rw [children_mapChildren, List.getElem?_map]
  cases n.children[position]? <;> rfl

/-! ## Replacing the nodes of tasks -/

/-- A continuation with all its nodes replaced.  The branches of a switch are no names. -/
@[simp] def Continuation.mapNodes (f : Node → Node) : Continuation → Continuation
  | .object n context => .object (f n) context
  | .branch body other => .branch (f body) (other.map f)
  | .otherwise skip n => .otherwise skip (f n)
  | .shortCircuit code right => .shortCircuit code (f right)
  | .coalesce temp right => .coalesce temp (f right)
  | .defaultParameter hash value => .defaultParameter hash (f value)
  | .whileBody header body => .whileBody header (f body)
  | .forHeader condition step body => .forHeader (f condition) (f step) (f body)
  | .forBody header tested step body => .forBody header tested (f step) (f body)
  | .forStep header exit step => .forStep header exit (f step)
  | .foreachBody locals key value body => .foreachBody locals key value (f body)
  | .switchStore key branches => .switchStore key (branches.map (mapChildren f))
  | .switchCase key branches position falling =>
      .switchCase key (branches.map (mapChildren f)) position falling
  | .switchTest key branches position falling =>
      .switchTest key (branches.map (mapChildren f)) position falling
  | k => k

/-- A task with all its nodes replaced. -/
@[simp] def Task.mapNodes (f : Node → Node) : Task → Task
  | .node n context => .node (f n) context
  | .resume k => .resume (k.mapNodes f)
  | .endMacro => .endMacro

@[simp] theorem mapNodes_values (nodes : List Node) :
    (Task.values nodes).map (Task.mapNodes f) = Task.values (nodes.map f) := by
  simp [Task.values]

/-! ## Matching steps -/

/-- Whenever one step plans tasks, the other plans them with nodes replaced, and has the same
effect. -/
structure Matches (f : Node → Node) (x y : Attempt (List Task)) : Prop where
  /-- What the other step does. -/
  follows : ∀ {s : State} {tasks : List Task} {s' : State}, x s = .ok (tasks, s') →
    y s = .ok (tasks.map (Task.mapNodes f), s')

/-- A step on a node is matched by the step on the node with its children replaced. -/
def Natural (f : Node → Node) (plan : Node → Attempt (List Task)) : Prop :=
  ∀ n, Matches f (plan n) (plan (mapChildren f n))

theorem matches_return {tasks tasks' : List Task} (h : tasks.map (Task.mapNodes f) = tasks') :
    Matches f (pure tasks) (pure tasks') :=
  ⟨fun hrun => by cases hrun; rw [h]; rfl⟩

theorem matches_throw (fault : Fault) (y : Attempt (List Task)) : Matches f (throw fault) y :=
  ⟨fun hrun => by cases hrun⟩

theorem matches_bind {x : Attempt α} {g h : α → Attempt (List Task)}
    (hrest : ∀ a, Matches f (g a) (h a)) : Matches f (x >>= g) (x >>= h) where
  follows {s tasks s'} hrun := by
    obtain ⟨a, t, hfirst, hrun⟩ := exists_of_attempt_bind hrun
    change (x s).bind _ = _
    rw [hfirst]
    exact (hrest a).follows hrun

theorem matches_leaf (x : Attempt PUnit) :
    Matches f (x >>= fun _ => pure []) (x >>= fun _ => pure []) :=
  matches_bind fun _ => matches_return rfl

/-- A child that must be there decides how to go on. -/
theorem matches_child {position : Nat} {g h : Node → Attempt (List Task)}
    (hrest : ∀ child, Matches f (g child) (h (f child))) :
    Matches f (liftM (n.child position) >>= g)
      (liftM ((mapChildren f n).child position) >>= h) := by
  rw [child_mapChildren]
  cases n.child position with
  | error e => exact matches_throw (.error e) _
  | ok child => exact hrest child

theorem matches_suffixFrom {items : List Node} {position : Nat} {g h : List Node → Attempt (List Task)}
    (hrest : Matches f (g (items.drop position)) (h ((items.drop position).map f))) :
    Matches f (suffixFrom items position >>= g) (suffixFrom (items.map f) position >>= h) := by
  unfold suffixFrom
  rw [List.length_map]
  split
  · rw [pure_bind, pure_bind, ← List.map_drop]
    exact hrest
  · exact matches_throw _ _

/-! ## Expressions -/

theorem natural_binary (lookup : String → Option Opcode) : Natural f (planBinary lookup) := by
  refine fun n => matches_bind fun token => ?_
  cases lookup token with
  | none => exact matches_throw _ _
  | some code => exact matches_child fun _ => matches_child fun _ => matches_return rfl

theorem natural_boolean (context : Context) : Natural f (planBoolean · context) := by
  intro n
  dsimp only [planBoolean]
  rw [children_mapChildren]
  rcases n.children with _ | ⟨left, _ | ⟨right, others⟩⟩
  · exact matches_return rfl
  · exact matches_return rfl
  · refine matches_bind fun token => ?_
    cases connective? token with
    | none => exact matches_throw _ _
    | some found =>
        obtain ⟨tested, code⟩ := found
        cases tested <;> exact matches_return rfl

theorem natural_typeTest (inverted : Bool) : Natural f (planTypeTest · inverted) := by
  refine fun n => matches_child fun operand => matches_bind fun name => ?_
  dsimp only
  generalize asciiLower name = type
  split
  case h_11 => exact matches_throw _ _
  case h_1 | h_2 | h_3 | h_4 =>
    cases inverted <;> exact matches_return rfl
  all_goals
    refine matches_bind fun key => ?_
    cases inverted <;> exact matches_return rfl

theorem natural_cast : Natural f planCast := by
  refine fun n => matches_bind fun name => ?_
  dsimp only
  generalize asciiLower name = type
  split
  case h_4 => exact matches_throw _ _
  all_goals
    exact matches_bind fun key => matches_child fun operand =>
      matches_return rfl

theorem natural_name (context : Context) : Natural f (planName · context) := by
  refine fun n => matches_bind fun name => matches_bind fun revision => ?_
  dsimp only
  cases Code.builtinObject? revision name (context.has .isRef) with
  | some object => exact matches_leaf _
  | none => exact matches_bind fun _ => matches_leaf _

/-! ## Statements -/

theorem natural_if (needsElse : Bool) : Natural f (planIf · needsElse) := by
  intro n
  dsimp only [planIf]
  rw [children_mapChildren, List.getElem?_map, Option.isNone_map]
  split
  · exact matches_throw _ _
  · exact matches_child fun _ => matches_child fun _ => matches_return rfl

theorem natural_return : Natural f planReturn := by
  intro n
  unfold planReturn
  rw [children_mapChildren]
  cases n.children with
  | nil => exact matches_leaf _
  | cons value others => exact matches_return rfl

theorem elementTasks_map (target : Node) (elements : List Node) (position : Nat) :
    (elementTasks target position elements).map (Task.mapNodes f) =
      elementTasks (f target) position (elements.map f) := by
  induction elements generalizing position with
  | nil => rfl
  | cons element rest ih => simp [elementTasks, ih]

theorem defaultNodeLast_map (branches : List Node) :
    defaultNodeLast (branches.map (mapChildren f)) =
      (defaultNodeLast branches).map (mapChildren f) := by
  have his : (fun b : Node => b.is "default") ∘ mapChildren f = fun b => b.is "default" := rfl
  unfold defaultNodeLast
  rw [List.findIdx?_map, his]
  cases branches.findIdx? (·.is "default") with
  | none => rfl
  | some position =>
      simp only [List.eraseIdx_map, List.getElem?_map, List.map_append, Option.toList_map]

/-! ## Nodes that are looked at -/

variable [Replacement f]

theorem findChild?_mapChildren {kind : String} (hname : kind ≠ "identifier")
    (hparen : kind ≠ "parenExpr") :
    (mapChildren f n).findChild? kind = (n.findChild? kind).map f := by
  rw [Node.findChild?, children_mapChildren, List.find?_map]
  congr 2
  funext child
  exact Replacement.is child hname hparen

theorem inside_of_findChild? {kind : String} {child : Node} (hname : kind ≠ "identifier")
    (h : n.findChild? kind = some child) : f child = mapChildren f child := by
  have hkind : child.is kind := by simpa using List.find?_some h
  refine Replacement.inside child ?_
  rw [Node.is, eq_of_beq hkind]
  simpa using hname

theorem natural_functionPointer : Natural f planFunctionPointer := by
  refine fun n => matches_bind fun name => matches_bind fun function => matches_bind fun own => ?_
  rw [findChild?_mapChildren (by decide) (by decide)]
  cases n.findChild? "namespace" with
  | none => exact matches_bind fun _ => matches_bind fun _ => matches_leaf _
  | some child =>
      dsimp only [Option.map_some]
      rw [Replacement.text]
      exact matches_bind fun _ => matches_bind fun _ => matches_bind fun _ => matches_leaf _

theorem namedLocal_replaced : namedLocal (f n) = namedLocal n := by
  rw [namedLocal, namedLocal, Replacement.text]

theorem natural_foreach (withKey : Bool) : Natural f (planForeach · withKey) := by
  intro n
  -- with and without a name for the keys, what is left is the same but for a position
  have hloop (locals : ForeachLocals) (offset : Nat) (key : UInt32) :
      Natural f fun n => do
        let value ← namedLocal (← n.child offset)
        let collection ← n.child (offset + 1)
        let body ← n.child (offset + 2)
        return [.node collection .plain, .resume (.foreachBody locals key value body)] := by
    refine fun n => matches_child fun named => ?_
    rw [namedLocal_replaced]
    exact matches_bind fun _ => matches_child fun _ => matches_child fun _ =>
      matches_return rfl
  refine matches_bind fun locals => ?_
  cases withKey with
  | false => exact matches_bind fun key => hloop locals 0 key n
  | true =>
      refine matches_child fun named => ?_
      rw [namedLocal_replaced]
      exact matches_bind fun key => hloop locals 1 key n

/-- The branches of a switch are checked to be cases and defaults, so none of them is a name. -/
theorem natural_switch : Natural f planSwitch := by
  refine fun n => matches_bind fun key => matches_child fun value => matches_suffixFrom ?_
  generalize n.children.drop 1 = branches
  have hfind : (branches.map f).find? (fun b => !b.is "case" && !b.is "default") =
      (branches.find? fun b => !b.is "case" && !b.is "default").map f := by
    rw [List.find?_map]
    congr 2
    funext b
    simp [Replacement.is]
  rw [hfind]
  cases hother : branches.find? fun b => !b.is "case" && !b.is "default" with
  | some other => exact matches_throw _ _
  | none =>
      have hbranches : branches.map f = branches.map (mapChildren f) := by
        refine List.map_congr_left fun b hb => Replacement.inside b fun hname => ?_
        have hkinds := List.find?_eq_none.mp hother b hb
        simp [Node.is, eq_of_beq hname] at hkinds
      exact matches_bind fun _ => matches_return (by simp [hbranches, defaultNodeLast_map])

theorem natural_assignment : Natural f planAssignment := by
  refine fun n => matches_bind fun token => matches_child fun target => ?_
  split
  case h_1 | h_2 => exact matches_return rfl
  case h_3 =>
    refine matches_child fun value => ?_
    rw [Replacement.is value (by decide) (by decide)]
    split
    case isTrue hshort =>
      have hvalue : f value = mapChildren f value := by
        refine Replacement.inside value ?_
        rw [Node.is, eq_of_beq hshort]
        decide
      exact matches_return (by simp [assignTasks, elementTasks_map, hvalue])
    case isFalse => exact matches_return rfl
  case h_4 =>
    exact matches_bind fun _ => matches_child fun _ => matches_return rfl
  case h_5 =>
    cases compoundOp? token with
    | none => exact matches_throw _ _
    | some code => exact matches_child fun _ => matches_return rfl

/-! ## Calls -/

/-- The nodes of a call with all of them replaced. -/
def CallNodes.mapNodes (f : Node → Node) (p : CallNodes) : CallNodes :=
  { p with arguments := p.arguments.map f, caller := p.caller.map f, pointer := p.pointer.map f }

theorem innerChild?_mapChildren {kind : String} (hname : kind ≠ "identifier")
    (hparen : kind ≠ "parenExpr") :
    innerChild? (mapChildren f n) kind = (innerChild? n kind).map (Option.map f) := by
  unfold innerChild?
  rw [findChild?_mapChildren hname hparen]
  cases hchild : n.findChild? kind with
  | none => rfl
  | some child =>
      rw [Option.map_some, inside_of_findChild? (f := f) hname hchild]
      dsimp only
      rw [child_mapChildren]
      cases child.child 0 <;> rfl

theorem callNodes_mapChildren :
    callNodes (mapChildren f n) = (callNodes n).map (CallNodes.mapNodes f) := by
  have harguments : (((mapChildren f n).findChild? "arguments").map Node.children).getD [] =
      (((n.findChild? "arguments").map Node.children).getD []).map f := by
    rw [findChild?_mapChildren (by decide) (by decide)]
    cases hchild : n.findChild? "arguments" with
    | none => rfl
    | some child => simp [inside_of_findChild? (f := f) (by decide) hchild]
  unfold callNodes
  rw [harguments, innerChild?_mapChildren (by decide) (by decide),
    innerChild?_mapChildren (by decide) (by decide), findChild?_mapChildren (by decide) (by decide),
    findChild?_mapChildren (by decide) (by decide), Option.isSome_map]
  dsimp only
  rw [List.length_map]
  generalize ((n.findChild? "arguments").map Node.children).getD [] = arguments
  cases innerChild? n "caller" with
  | error e => rfl
  | ok caller =>
      cases innerChild? n "pointer" with
      | error e => rfl
      | ok pointer =>
          cases n.findChild? "namespace" with
          | none => cases requireAtMost "call parameters" arguments.length maxParameters <;> rfl
          | some child =>
              simp only [Option.map_some, Replacement.text]
              cases child.text with
              | error e => rfl
              | ok text =>
                  cases requireAtMost "call parameters" arguments.length maxParameters <;> rfl

section Calls

omit [Replacement f]

variable {p : CallNodes}

@[simp] theorem params_mapNodes : (p.mapNodes f).params = p.params := by
  simp [CallNodes.params, CallNodes.mapNodes]

theorem context_mapNodes (outer : Context) : (p.mapNodes f).context outer = p.context outer := by
  simp [CallNodes.context, CallNodes.mapNodes]

@[simp] theorem reversed_mapNodes : (p.mapNodes f).reversed = p.reversed.map (Task.mapNodes f) := by
  simp [CallNodes.reversed, CallNodes.mapNodes]

@[simp] theorem operands_mapNodes : (p.mapNodes f).operands = p.operands.map (Task.mapNodes f) := by
  have hcaller : (p.mapNodes f).caller = p.caller.map f := rfl
  simp [CallNodes.operands, hcaller, Option.toList_map]

@[simp] theorem dropTasks_map (context : Context) :
    (dropTasks context).map (Task.mapNodes f) = dropTasks context := by
  unfold dropTasks
  split <;> rfl

theorem matches_notifier (code : Opcode) (caller : Node) (context : Context) :
    Matches f (planNotifier code p caller context)
      (planNotifier code (p.mapNodes f) (f caller) context) := by
  unfold planNotifier
  refine matches_bind fun revision => ?_
  cases revision with
  | legacy =>
      split
      case h_1 =>
          have harguments : (p.mapNodes f).arguments = p.arguments.map f := rfl
          rw [harguments]
          cases p.arguments with
          | nil => exact matches_throw _ _
          | cons event bound => exact matches_return (by simp)
      case h_2 | h_3 => exact matches_return (by simp)
      case h_4 => contradiction
  | rev36 =>
      split
      case h_1 | h_3 => contradiction
      case h_2 => exact matches_return (by simp)
      case h_4 =>
          rw [params_mapNodes]
          dsimp only
          split <;> exact matches_return (by simp)

theorem matches_builtinCall (name : String) (context : Context) :
    Matches f (planBuiltinCall name p context) (planBuiltinCall name (p.mapNodes f) context) := by
  have hcaller : (p.mapNodes f).caller = p.caller.map f := rfl
  unfold planBuiltinCall
  rw [hcaller]
  refine matches_bind fun revision => ?_
  cases p.caller with
  | none =>
      dsimp only [Option.map_none]
      cases Code.builtinCall? revision name with
      | none => exact matches_throw _ _
      | some code => exact matches_return (by simp)
  | some caller =>
      dsimp only [Option.map_some]
      cases Code.notifier? revision name with
      | none => exact matches_throw _ _
      | some code => exact matches_notifier code caller context

theorem matches_namedCall (name : String) (context : Context) :
    Matches f (planNamedCall name p context) (planNamedCall name (p.mapNodes f) context) := by
  have hname : (p.mapNodes f).namespaceName = p.namespaceName := rfl
  unfold planNamedCall
  rw [hname, params_mapNodes]
  cases p.namespaceName with
  | none | some _ =>
      exact matches_bind fun _ => matches_bind fun _ => matches_bind fun _ => matches_return (by simp)

theorem matches_callOf (context : Context) :
    Matches f (planCallOf n p context) (planCallOf (mapChildren f n) (p.mapNodes f) context) := by
  have hpointer : (p.mapNodes f).pointer = p.pointer.map f := rfl
  have hname : (p.mapNodes f).namespaceName = p.namespaceName := rfl
  unfold planCallOf
  rw [hpointer, hname]
  cases p.pointer with
  | some pointer => exact matches_return (by simp)
  | none =>
      refine matches_bind fun text => matches_bind fun revision => ?_
      split
      · exact matches_builtinCall _ context
      · exact matches_namedCall _ context

end Calls

theorem natural_call (context : Context) : Natural f (planCall · context) := by
  intro n
  dsimp only [planCall]
  rw [callNodes_mapChildren]
  cases callNodes n with
  | error e => exact matches_throw _ _
  | ok p =>
      change Matches f _ (planCallOf _ (p.mapNodes f) ((p.mapNodes f).context context))
      rw [context_mapNodes]
      exact matches_callOf _

/-! ## Nodes and continuations -/

/-- A node is planned as before, with the nodes below it replaced. -/
theorem natural_planNode (context : Context) : Natural f (planNode · context) := by
  intro n
  dsimp only [planNode]
  rw [kind_mapChildren]
  cases Kind.ofName? n.kind with
  | none => exact matches_throw _ _
  | some kind =>
      cases kind with
      | sequence => exact matches_return (by simp)
      | ifStatement => exact natural_if false n
      | conditional => exact natural_if true n
      | whileStatement =>
          exact matches_child fun _ => matches_child fun _ => matches_bind fun _ => matches_bind fun _ =>
            matches_return rfl
      | forStatement =>
          exact matches_child fun _ => matches_child fun _ => matches_child fun _ =>
            matches_child fun _ => matches_bind fun _ => matches_return rfl
      | foreachSingle => exact natural_foreach false n
      | foreachDouble => exact natural_foreach true n
      | switchStatement => exact natural_switch n
      | returnStatement => exact natural_return n
      | simpleCall | wait | boolNot | size => exact matches_child fun _ => matches_return rfl
      | call => exact natural_call context n
      | assignment => exact natural_assignment n
      | shortHandArray => exact matches_throw _ _
      | identifier => exact natural_name context n
      | directAccess | definedAccess =>
          exact matches_child fun _ => matches_bind fun _ => matches_bind fun _ =>
            matches_bind fun _ => matches_return rfl
      | element => exact matches_child fun _ => matches_child fun _ => matches_return rfl
      | booleanExpression => exact natural_boolean context n
      | relationalExpression => exact natural_binary Code.compareOp? n
      | expression => exact natural_binary Code.mathOp? n
      | coalesce =>
          exact matches_bind fun _ => matches_child fun _ => matches_child fun _ => matches_return rfl
      | typeComparison => exact natural_typeTest false n
      | typeComparisonInverted => exact natural_typeTest true n
      | castOp => exact natural_cast n
      | vector =>
          exact matches_child fun _ => matches_child fun _ => matches_child fun _ => matches_return rfl
      | functionPointer => exact natural_functionPointer n
      | stringLiteral | localizedString => exact matches_bind fun _ => matches_leaf _
      | jumpStatement | waitTillFrameEnd | debugString | hashedString | canonicalHash
      | numberLiteral | newArray => exact matches_leaf _

section Switch

omit [Replacement f]

variable {key : UInt32} {branches : List Node} {position : Nat} {falling : List Key}

theorem matches_switchCase :
    Matches f (planRest (.switchCase key branches position falling))
      (planRest (.switchCase key (branches.map (mapChildren f)) position falling)) := by
  rw [planRest, planRest, List.getElem?_map]
  cases branches[position]? with
  | none => exact matches_bind fun _ => matches_leaf _
  | some branch =>
      dsimp only [Option.map_some]
      rw [is_mapChildren]
      split
      · exact matches_bind fun _ => matches_return (by simp)
      · exact matches_child fun _ => matches_return rfl

theorem matches_switchTest :
    Matches f (planRest (.switchTest key branches position falling))
      (planRest (.switchTest key (branches.map (mapChildren f)) position falling)) := by
  rw [planRest, planRest, itemAt, itemAt, List.getElem?_map]
  cases branches[position]? with
  | none => exact matches_throw _ _
  | some branch =>
      dsimp only [Option.map_some]
      rw [pure_bind, pure_bind, children_mapChildren, List.length_map]
      refine matches_bind fun _ => matches_bind fun _ => ?_
      split
      · exact matches_bind fun _ => matches_bind fun _ =>
          matches_suffixFrom (matches_return (by simp))
      · exact matches_bind fun _ => matches_return rfl

end Switch

theorem matches_rest {k : Continuation} (hobject : ∀ n context, k ≠ .object n context) :
    Matches f (planRest k) (planRest (k.mapNodes f)) := by
  cases k with
  | object n context => exact absurd rfl (hobject n context)
  | op | number | store | field | call | callPointer | notification | land | definedAccess
  | closeLoop | switchEnd => exact matches_leaf _
  | branch body other =>
      refine matches_bind fun skip => ?_
      cases other <;> exact matches_return rfl
  | shortCircuit code right =>
      refine matches_bind fun decided => matches_bind fun legacy => ?_
      cases legacy <;> exact matches_return rfl
  | coalesce | whileBody | forStep | switchStore => exact matches_bind fun _ => matches_return rfl
  | otherwise | defaultParameter | foreachBody =>
      exact matches_bind fun _ => matches_bind fun _ => matches_return rfl
  | forHeader condition step body =>
      refine matches_bind fun header => ?_
      rw [Replacement.is condition (by decide) (by decide)]
      cases condition.is "empty" <;> exact matches_return rfl
  | forBody header tested step body =>
      cases tested <;> exact matches_bind fun _ => matches_return rfl
  | foreachStep => exact matches_bind fun _ => matches_bind fun _ => matches_leaf _
  | switchCase => exact matches_switchCase
  | switchTest => exact matches_switchTest

omit [Replacement f]

/-! ## Objects -/

/-- What is planned for an object, builtin or not. -/
def planObject (n : Node) (isRef : Bool) : Option (String × BuiltinObject) → Attempt (List Task)
  | some named => do
      emitBuiltin named.1 named.2 isRef
      return []
  | none => return .node n .plain :: if isRef then [.resume (.op .castFieldObject)] else []

theorem planRest_object {context : Context} {s : State} {found : Option (String × BuiltinObject)}
    (h : namedObject? s.script.target.revision n (context.has .isRef) = .ok found) :
    planRest (.object n context) s = planObject n (context.has .isRef) found s := by
  have hrun (g : Option (String × BuiltinObject) → Attempt (List Task)) :
      (do
        let revision ← getRevision
        let found ← namedObject? revision n (context.has .isRef)
        g found : Attempt (List Task)) s = g found s := by
    change (liftM (namedObject? s.script.target.revision n (context.has .isRef)) >>= g) s = _
    rw [h]
    rfl
  rw [planRest, hrun]
  cases found <;> rfl

theorem matches_planObject (isRef : Bool) (found : Option (String × BuiltinObject)) :
    Matches f (planObject n isRef found) (planObject (f n) isRef found) := by
  cases found with
  | some named => exact matches_leaf _
  | none =>
      cases isRef <;> exact matches_return rfl

variable {meaning : String → Option Node}

theorem namedObject?_substitute {revision : Revision} {isRef : Bool}
    {found : Option (String × BuiltinObject)} (hfound : namedObject? revision n isRef = .ok found)
    (h : ∀ expression, meant? meaning n = some expression → found = none) :
    namedObject? revision (substitute meaning n) isRef = .ok found := by
  cases hmeant : meant? meaning n with
  | none =>
      rw [substitute_of_none hmeant]
      exact hfound
  | some expression =>
      rw [substitute_of_some hmeant, h expression hmeant]
      rfl

/-- An object is planned as before, unless it has a meaning and is a builtin one. -/
theorem planRest_object_substitute {context : Context} {s s' : State} {tasks : List Task}
    (h : ∀ expression, meant? meaning n = some expression →
      namedObject? s.script.target.revision n (context.has .isRef) = .ok none)
    (hrun : planRest (.object n context) s = .ok (tasks, s')) :
    planRest (.object (substitute meaning n) context) s =
      .ok (tasks.map (Task.mapNodes (substitute meaning)), s') := by
  cases hfound : namedObject? s.script.target.revision n (context.has .isRef) with
  | error e =>
      obtain ⟨revision, _, hrevision, hrun⟩ := exists_of_attempt_bind hrun
      cases hrevision
      rw [hfound] at hrun
      cases hrun
  | ok found =>
      have hnone expression (hmeant : meant? meaning n = some expression) : found = none :=
        Except.ok.inj (hfound.symm.trans (h expression hmeant))
      rw [planRest_object hfound] at hrun
      rw [planRest_object (namedObject?_substitute hfound hnone)]
      exact (matches_planObject _ found).follows hrun

end GscAssembler.Lowering
