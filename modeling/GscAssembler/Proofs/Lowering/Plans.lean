import GscAssembler.Proofs.Lowering.Tasks

/-!
# What tasks stand for

Each task stands for a piece of lowering (`Task.code`): a node for its code, and a continuation for
the code of what is left of its construct.  `Plans` says that a step does what the task stands for:
running the step, and then the pieces that the planned tasks stand for, is the piece itself.  It also
says that the planned tasks are smaller, so that there is an end to them.
-/

namespace GscAssembler.Lowering

open Code (Context ForeachLocals Key Opcode)
open Reference (ImportKey)
open SyntaxTree (Node)
open Text (asciiLower)

variable {α β : Type}

/-! ## Pieces of lowering as steps -/

@[simp] theorem perform_pure (a : α) : perform (pure a) = pure a := rfl

@[simp] theorem perform_bind (x : Lower α) (f : α → Lower β) :
    perform (x >>= f) = perform x >>= fun a => perform (f a) := by
  funext s
  change ((x s).bind _).mapError _ = ((x s).mapError _).bind _
  cases x s <;> rfl

theorem liftM_eq_perform (x : Lower α) : (liftM x : Attempt α) = perform x := rfl

@[simp] theorem perform_forM (items : List α) (f : α → Lower Unit) :
    perform (forM items f) = forM items fun a => perform (f a) := by
  induction items with
  | nil => rfl
  | cons a rest ih => rw [List.forM_cons, List.forM_cons, perform_bind, ih]

/-! ## The code of tasks -/

/-- The branch of a switch that a node stands for. -/
def branchOf (macros : Macros) (n : Node) : SwitchBranch :=
  switchBranch (fragment macros n)

/-- The code of a switch behind the value of a branch. -/
def behindValue (macros : Macros) (key : UInt32) (falling : List Key) (branch : Node)
    (rest : List Node) : Lower Unit := do
  emitEval key .plain
  emitOp .equal
  match branch.children.drop 1 with
  | [] =>
      let taken ← emitJump .jumpOnTrue
      switchBranches key (rest.map (branchOf macros)) (falling ++ [taken])
  | first :: others =>
      let skip ← emitJump .jumpOnFalse
      landAll falling
      (first :: others).forM fun n => lowerNode macros n .plain
      land skip
      switchBranches key (rest.map (branchOf macros)) []

/-- The code that is left of a construct. -/
@[simp] def restCode (macros : Macros) : Continuation → Attempt Unit
  | .op code => perform (emitOp code)
  | .number value => perform (emitNumber (.int value))
  | .store hash => perform (emitStore hash)
  | .field code hash => perform (discard (emit (.field code hash)))
  | .object n context => perform (lowerObject (fragment macros n) context)
  | .call code key => perform (emitCall code key)
  | .callPointer code params => perform (discard (emit (.callPointer code params)))
  | .notification code params => perform (discard (emit (.notification code params)))
  | .land jump => perform (land jump)
  | .branch body none => perform (Control.skipOver .jumpOnFalse (lowerNode macros body .plain))
  | .branch body (some otherwise) => perform
      (Control.chooseBetween .jumpOnFalse (lowerNode macros body .plain)
        (lowerNode macros otherwise .plain))
  | .otherwise skip n => perform do
      let done ← emitJump .jump
      setTarget skip done
      lowerNode macros n .plain
      land done
  | .shortCircuit code right => perform
      (Control.skipOver code do
        lowerNode macros right .plain
        unless ← isLegacy do emitOp .castBool)
  | .definedAccess temp field context =>
      perform (definedAccess temp (pure ())
        (if context.has .isRef then .evalFieldVariableRef else .evalFieldVariable) field)
  | .coalesce temp right => perform do
      let done ← keepDefined temp
      lowerNode macros right .plain
      land done
  | .defaultParameter hash value =>
      perform (defaultParameter hash (lowerNode macros value .plain))
  | .whileBody header body => perform do
      let exit ← emitJump .jumpOnFalse
      lowerNode macros body .plain
      closeLoop header (some exit) header
  | .forHeader condition step body => perform do
      let header ← lastKey
      let exit ← loopTest (if condition.is "empty" then none
        else some (lowerNode macros condition .plain))
      lowerNode macros body .plain
      let continueAt ← lastKey
      lowerNode macros step .plain
      closeLoop header exit continueAt
  | .forBody header tested step body => perform do
      let exit ← if tested then some <$> emitJump .jumpOnFalse else pure none
      lowerNode macros body .plain
      let continueAt ← lastKey
      lowerNode macros step .plain
      closeLoop header exit continueAt
  | .forStep header exit step => perform do
      let continueAt ← lastKey
      lowerNode macros step .plain
      closeLoop header exit continueAt
  | .foreachBody locals key value body => perform do
      let legacy ← isLegacy
      let ends ← openForeach legacy locals key value
      lowerNode macros body .plain
      let continueAt ← lastKey
      let again ← isLegacy
      closeForeach again locals key ends.1 ends.2 continueAt
  | .foreachStep locals key header exit => perform do
      let continueAt ← lastKey
      let legacy ← isLegacy
      closeForeach legacy locals key header exit continueAt
  | .closeLoop header exit continueAt => perform (closeLoop header exit continueAt)
  | .switchStore key branches => perform do
      emitStore key
      switchBranches key (branches.map (branchOf macros)) []
  | .switchCase key branches position falling =>
      perform (switchBranches key ((branches.drop position).map (branchOf macros)) falling)
  | .switchTest key branches position falling => do
      let branch ← itemAt branches position
      perform (behindValue macros key falling branch (branches.drop (position + 1)))
  | .switchEnd => perform closeSwitch

/-- The code that a task stands for. -/
def Task.code (macros : Macros) : Task → Attempt Unit
  | .node n context => perform (lowerNode macros n context)
  | .resume k => restCode macros k
  | .endMacro => pure ()

/-! ## Sizes -/

mutual

/-- The number of nodes of a tree. -/
def weight : Node → Nat
  | .mk _ _ _ children => 1 + weightAll children

/-- The number of nodes of several trees. -/
def weightAll : List Node → Nat
  | [] => 0
  | n :: rest => weight n + weightAll rest

end

theorem weight_eq (n : Node) : weight n = 1 + weightAll n.children := by
  cases n with
  | mk kind text value children => rw [weight, Node.children]

@[simp] theorem weight_pos (n : Node) : 0 < weight n := by
  rw [weight_eq]
  omega

theorem weightAll_eq_sum (nodes : List Node) : weightAll nodes = (nodes.map weight).sum := by
  induction nodes with
  | nil => rfl
  | cons n rest ih => simp [weightAll, ih]

theorem weight_le_of_mem {nodes : List Node} {n : Node} (h : n ∈ nodes) :
    weight n ≤ weightAll nodes := by
  rw [weightAll_eq_sum]
  exact List.le_sum_of_mem (List.mem_map_of_mem h)

theorem weight_lt_of_child {n child : Node} (h : child ∈ n.children) : weight child < weight n := by
  have := weight_le_of_mem h
  rw [weight_eq n]
  omega

/-- A bound for how often a continuation still plans tasks, and for the nodes it plans. -/
@[simp] def Continuation.size : Continuation → Nat
  | .object n _ => 4 * weight n + 1
  | .branch body other => 4 * max (weight body) (other.elim 0 weight) + 2
  | .otherwise _ n => 4 * weight n + 1
  | .shortCircuit _ right => 4 * weight right + 1
  | .coalesce _ right => 4 * weight right + 1
  | .defaultParameter _ value => 4 * weight value + 1
  | .whileBody _ body => 4 * weight body + 1
  | .forHeader condition step body =>
      4 * max (weight condition) (max (weight step) (weight body)) + 3
  | .forBody _ _ step body => 4 * max (weight step) (weight body) + 2
  | .forStep _ _ step => 4 * weight step + 1
  | .foreachBody _ _ _ body => 4 * weight body + 1
  | .switchStore _ branches => 4 * weightAll branches + 3
  | .switchCase _ branches position _ => 4 * weightAll (branches.drop position) + 2
  | .switchTest _ branches position _ => 4 * weightAll (branches.drop position) + 1
  | _ => 0

/-- A bound for how often a task still plans others, and for the nodes it plans. -/
def Task.size : Task → Nat
  | .node n _ => 4 * weight n
  | .resume k => k.size
  | .endMacro => 0

/-- Whether a task is smaller than a bound and ends no macro. -/
def Task.Below (bound : Nat) (t : Task) : Prop :=
  t.size < bound ∧ t ≠ .endMacro

@[simp] theorem below_node {bound : Nat} {n : Node} {context : Context} :
    (Task.node n context).Below bound ↔ 4 * weight n < bound :=
  and_iff_left nofun

@[simp] theorem below_resume {bound : Nat} {k : Continuation} :
    (Task.resume k).Below bound ↔ k.size < bound :=
  and_iff_left nofun

/-! ## Plans -/

/-- Running a step, and then what the planned tasks stand for, is the piece of code; and the planned
tasks are below the bound. -/
structure Plans (macros : Macros) (bound : Nat) (x : Attempt Unit) (y : Attempt (List Task)) :
    Prop where
  /-- What is done. -/
  code_eq : x = y >>= fun tasks => forM tasks (Task.code macros)
  /-- What is left to do. -/
  below : ∀ {s : State} {tasks : List Task} {s' : State}, y s = .ok (tasks, s') →
    ∀ t ∈ tasks, t.Below bound

section Plans

variable {macros : Macros} {bound : Nat} {x : Attempt Unit}

theorem plans_return {tasks : List Task} (hbelow : ∀ t ∈ tasks, t.Below bound)
    (hx : x = forM tasks (Task.code macros)) : Plans macros bound x (pure tasks) where
  code_eq := by rw [hx, pure_bind]
  below h := by cases h; exact hbelow

theorem plans_throw (fault : Fault) :
    Plans macros bound (throw fault) (throw fault) where
  code_eq := rfl
  below h := by cases h

theorem plans_step {a : Lower α} {f : α → Lower Unit} {g : α → Attempt (List Task)}
    (h : ∀ v, Plans macros bound (perform (f v)) (g v)) :
    Plans macros bound (perform (a >>= f)) (liftM a >>= g) where
  code_eq := by
    rw [perform_bind, liftM_eq_perform, bind_assoc]
    exact bind_congr fun v => (h v).code_eq
  below {s tasks s'} hrun := by
    change ((a s).mapError Fault.error).bind _ = _ at hrun
    cases hstep : a s with
    | error e => rw [hstep] at hrun; cases hrun
    | ok r =>
        rw [hstep] at hrun
        exact (h r.1).below hrun

/-- A check decides how to go on. -/
theorem plans_check {a : Except CompileError α} {f : α → Lower Unit}
    {g : α → Attempt (List Task)} (h : ∀ v, a = .ok v → Plans macros bound (perform (f v)) (g v)) :
    Plans macros bound (perform (liftM a >>= f)) (liftM a >>= g) := by
  cases a with
  | error e => exact plans_throw (.error e)
  | ok v => exact h v rfl

@[simp] theorem lower_fragment (macros : Macros) (n : Node) (context : Context) :
    (fragment macros n).lower context = lowerNode macros n context := rfl

@[simp] theorem lowerValue_fragment (macros : Macros) (n : Node) :
    (fragment macros n).lowerValue = lowerNode macros n .plain := rfl

@[simp] theorem node_fragment (macros : Macros) (n : Node) : (fragment macros n).node = n := by
  cases n with
  | mk kind text value children => rw [fragment, Fragment.node]

@[simp] theorem parts_fragment (macros : Macros) (n : Node) :
    (fragment macros n).parts = n.children.map (fragment macros) := by
  cases n with
  | mk kind text value children =>
      rw [fragment, Fragment.parts, fragments_eq_map, Node.children]

/-- A construct of a node and of the fragments of its children. -/
def constructOf (macros : Macros) (n : Node) : Construct :=
  ⟨n, n.children.map (fragment macros)⟩

theorem part_constructOf (macros : Macros) (n : Node) (position : Nat) :
    (constructOf macros n).part position = (n.child position).map (fragment macros) := by
  unfold Construct.part Node.child constructOf
  rw [List.getElem?_map]
  cases n.children[position]? <;> rfl

theorem mem_children_of_child {n child : Node} {position : Nat} (h : n.child position = .ok child) :
    child ∈ n.children := by
  unfold Node.child at h
  split at h
  case h_1 hget => cases h; exact List.mem_of_getElem? hget
  case h_2 => cases h

theorem findPart?_constructOf (macros : Macros) (n : Node) (kind : String) :
    (constructOf macros n).findPart? kind = (n.findChild? kind).map (fragment macros) := by
  unfold Construct.findPart? Node.findChild? constructOf
  rw [List.find?_map]
  congr 2
  funext child
  simp [Fragment.is]

/-- A child that must be there decides how to go on. -/
theorem plans_child {n : Node} {position : Nat} {f : Fragment → Lower Unit}
    {g : Node → Attempt (List Task)} (h : ∀ child, weight child < weight n →
      Plans macros bound (perform (f (fragment macros child))) (g child)) :
    Plans macros bound (perform (liftM ((constructOf macros n).part position) >>= f))
      (liftM (n.child position) >>= g) := by
  rw [part_constructOf]
  cases hchild : n.child position with
  | error e => exact plans_throw (.error e)
  | ok child => exact h child (weight_lt_of_child (mem_children_of_child hchild))

end Plans

end GscAssembler.Lowering
