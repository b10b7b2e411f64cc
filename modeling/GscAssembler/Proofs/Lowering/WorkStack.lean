import GscAssembler.Proofs.Lowering.PlannedRules

/-!
# The stack of tasks and recursion agree

Running the machine on a task does what the task stands for (`completes`): the pending tasks below it
are left as they were, and the state is the one that recursion reaches, or both stop with the same
error.  In particular the machine stops.  The induction is on the macros that are not being expanded,
and for the same macros on the size of the task.
-/

namespace GscAssembler.Lowering

open Code (Context Key)
open SyntaxTree (Node)
open Text (asciiLower)

/-! ## Nodes -/

section Nodes

variable {macros : Macros} [∀ n context, Orderly True (.all True) (lowerNode macros n context)]

/-- A node that names no macro is lowered as planned. -/
theorem plans_node {n : Node} (context : Context)
    (hname : n.is "identifier" → ∀ name ∈ n.text?, macros.code? (asciiLower name) = none) :
    Plans macros (4 * weight n) (perform (lowerNode macros n context)) (planNode n context) := by
  rw [lowerNode_eq]
  unfold Construct.lower planNode
  cases hkind : Kind.ofName? n.kind with
  | none => exact plans_throw _
  | some kind =>
      cases kind with
      | sequence =>
          refine plans_return ?_ ?_
          · simp only [List.mem_map, forall_exists_index, and_imp, forall_apply_eq_imp_iff₂,
              below_node]
            intro child hchild
            have := weight_lt_of_child hchild
            omega
          · simp [Kind.rule, Task.code]
      | ifStatement => exact plans_if false
      | conditional => exact plans_if true
      | whileStatement => exact plans_while
      | forStatement => exact plans_for
      | foreachSingle => exact plans_foreach false
      | foreachDouble => exact plans_foreach true
      | switchStatement => exact plans_switch
      | jumpStatement => exact plans_leaf _
      | returnStatement => exact plans_returnStatement
      | wait => exact plans_unary .wait
      | waitTillFrameEnd => exact plans_leaf _
      | simpleCall =>
          refine plans_child fun call hcall => plans_return ?_ ?_
          · simp
            omega
          · simp [Task.code]
      | call => exact plans_call context
      | assignment => exact plans_assignment
      | shortHandArray => exact plans_throw _
      | identifier => exact plans_name _ context (hname (is_identifier_of_ofName? hkind))
      | directAccess => exact plans_field context
      | definedAccess => exact plans_definedField context
      | element => exact plans_element context
      | booleanExpression => exact plans_boolean context
      | boolNot => exact plans_unary .boolNot
      | size => exact plans_unary .sizeOf
      | relationalExpression => exact plans_binary Code.compareOp?
      | expression => exact plans_binary Code.mathOp?
      | coalesce => exact plans_coalesce
      | typeComparison => exact plans_typeTest false
      | typeComparisonInverted => exact plans_typeTest true
      | castOp => exact plans_cast
      | stringLiteral => exact plans_step fun text => plans_leaf _
      | localizedString => exact plans_step fun text => plans_leaf _
      | debugString => exact plans_leaf _
      | hashedString => exact plans_leaf _
      | canonicalHash => exact plans_leaf _
      | numberLiteral => exact plans_leaf _
      | vector => exact plans_vector
      | newArray => exact plans_leaf _
      | functionPointer => exact plans_functionPointer _

end Nodes

/-! ## Continuations -/

section Continuations

variable {macros : Macros}

theorem plans_object (n : Node) (context : Context) :
    Plans macros (Continuation.object n context).size
      (perform (lowerObject (fragment macros n) context)) (planRest (.object n context)) := by
  unfold lowerObject planRest
  refine plans_step fun revision => ?_
  rw [node_fragment]
  refine plans_step fun found => ?_
  cases found with
  | some named => exact plans_leaf _
  | none =>
      cases hcast : context.has .isRef with
      | false =>
          refine plans_return ?_ ?_
          · simp
          · simp [Task.code]
      | true =>
          refine plans_return ?_ ?_
          · simp
          · simp [Task.code]

theorem plans_shortCircuit [∀ n context, Orderly True (.all True) (lowerNode macros n context)]
    (code : Code.Opcode) (right : Node) :
    Plans macros (Continuation.shortCircuit code right).size
      (restCode macros (.shortCircuit code right)) (planRest (.shortCircuit code right)) := by
  have hcomm : (do
      lowerNode macros right .plain
      unless ← isLegacy do emitOp .castBool) = (do
      let legacy ← isLegacy
      lowerNode macros right .plain
      unless legacy do emitOp .castBool) :=
    (isLegacy_comm (lowerNode macros right .plain) fun legacy _ => unless legacy do
      emitOp .castBool).symm
  rw [restCode, Control.skipOver, planRest]
  refine plans_step fun decided => ?_
  rw [hcomm, bind_assoc]
  refine plans_step fun legacy => ?_
  cases legacy with
  | true =>
      refine plans_return ?_ ?_
      · simp
      · simp [Task.code]
  | false =>
      refine plans_return ?_ ?_
      · simp
      · simp [Task.code]

/-- The branches of a switch from a position that they have. -/
theorem drop_eq_cons {branches : List Node} {position : Nat} {branch : Node}
    (h : branches[position]? = some branch) :
    branches.drop position = branch :: branches.drop (position + 1) := by
  obtain ⟨hlt, rfl⟩ := List.getElem?_eq_some_iff.mp h
  exact List.drop_eq_getElem_cons hlt

theorem below_values {bound : Nat} {nodes : List Node} (h : ∀ n ∈ nodes, 4 * weight n < bound) :
    ∀ t ∈ Task.values nodes, t.Below bound := by
  simpa [Task.values] using h

theorem branchOf_of_cons {branch value : Node} {body : List Node} (hdefault : ¬branch.is "default")
    (hchildren : branch.children = value :: body) :
    branchOf macros branch =
      .case (lowerNode macros value .plain) (body.map (lowerNode macros · .plain)) := by
  simp [branchOf, switchBranch, Fragment.is, hdefault, hchildren, Function.comp_def]

theorem switchBranches_branchOf {branch value : Node} {body : List Node} (key : UInt32)
    (rest : List Node) (falling : List Key) (hdefault : ¬branch.is "default")
    (hchildren : branch.children = value :: body) :
    switchBranches key (branchOf macros branch :: rest.map (branchOf macros)) falling = (do
      lowerNode macros value .plain
      behindValue macros key falling branch rest) := by
  have hbody : branch.children.drop 1 = body := by rw [hchildren, List.drop_one, List.tail_cons]
  rw [branchOf_of_cons hdefault hchildren, behindValue, hbody]
  cases body with
  | nil => rfl
  | cons first others => simp [switchBranches, landAll]

theorem plans_switchCase (key : UInt32) (branches : List Node) (position : Nat)
    (falling : List Key) :
    Plans macros (Continuation.switchCase key branches position falling).size
      (restCode macros (.switchCase key branches position falling))
      (planRest (.switchCase key branches position falling)) := by
  rw [restCode, planRest, Continuation.size]
  cases hbranch : branches[position]? with
  | none =>
      have hdrop : branches.drop position = [] := List.drop_eq_nil_iff.mpr (by simpa using hbranch)
      rw [hdrop]
      exact plans_step fun _ => plans_leaf _
  | some branch =>
      have hdrop := drop_eq_cons hbranch
      rw [hdrop, List.map_cons, weightAll]
      by_cases hdefault : branch.is "default"
      · have hof : branchOf macros branch =
            .default (branch.children.map (lowerNode macros · .plain)) := by
          simp [branchOf, switchBranch, Fragment.is, hdefault, Function.comp_def]
        simp only [hdefault, if_true, hof]
        refine plans_step fun _ => plans_return ?_ ?_
        · simp only [List.forall_mem_append]
          refine ⟨below_values fun child hchild => ?_, by simp⟩
          have := weight_lt_of_child hchild
          omega
        · simp [Task.values, Task.code]
      · simp only [hdefault]
        unfold Node.child
        cases hchildren : branch.children with
        | nil =>
            have hof : branchOf macros branch =
                .case (throw (branch.malformed "missing child")) [] := by
              simp [branchOf, switchBranch, Fragment.is, hdefault, hchildren]
            rw [hof]
            exact plans_throw _
        | cons value body =>
            have hvalue : weight value < weight branch := weight_lt_of_child (by simp [hchildren])
            rw [switchBranches_branchOf key _ falling hdefault hchildren]
            refine plans_return ?_ ?_
            · simp [hdrop, weightAll]
              omega
            · have hitem : itemAt branches position = pure branch := by simp [itemAt, hbranch]
              simp [Task.code, hitem]

theorem plans_switchTest (key : UInt32) (branches : List Node) (position : Nat)
    (falling : List Key) :
    Plans macros (Continuation.switchTest key branches position falling).size
      (restCode macros (.switchTest key branches position falling))
      (planRest (.switchTest key branches position falling)) := by
  rw [restCode, planRest, itemAt, Continuation.size]
  cases hbranch : branches[position]? with
  | none => exact plans_throw _
  | some branch =>
      have hpos := weight_pos branch
      have hdrop := drop_eq_cons hbranch
      rw [hdrop, weightAll]
      simp only [pure_bind]
      rw [behindValue]
      refine plans_step fun _ => plans_step fun _ => ?_
      cases hbody : branch.children.drop 1 with
      | nil =>
          have hshort : ¬1 < branch.children.length := by
            rw [Nat.not_lt, ← List.drop_eq_nil_iff]
            exact hbody
          rw [if_neg hshort]
          refine plans_step fun taken => plans_return ?_ ?_
          · simp
            omega
          · simp [Task.code]
      | cons first others =>
          have hlong : 1 < branch.children.length := by
            by_contra hshort
            rw [List.drop_eq_nil_iff.mpr (Nat.not_lt.mp hshort)] at hbody
            cases hbody
          have hsuffix : suffixFrom branch.children 1 = pure (first :: others) := by
            rw [suffixFrom, if_pos hlong.le, hbody]
          rw [if_pos hlong]
          refine plans_step fun skip => plans_step fun _ => ?_
          rw [hsuffix, pure_bind]
          refine plans_return ?_ ?_
          · simp only [List.forall_mem_append]
            refine ⟨?_, ?_⟩
            · rw [← hbody]
              exact below_values fun child hchild => by
                have := weight_lt_of_child (List.mem_of_mem_drop hchild)
                omega
            · simp
              omega
          · simp [Task.values, Task.code]

theorem plans_rest [∀ n context, Orderly True (.all True) (lowerNode macros n context)]
    (k : Continuation) :
    Plans macros k.size (restCode macros k) (planRest k) := by
  cases k with
  | op code => exact plans_leaf _
  | number value => exact plans_leaf _
  | store hash => exact plans_leaf _
  | field code hash => exact plans_leaf _
  | object n context => exact plans_object n context
  | call code key => exact plans_leaf _
  | callPointer code params => exact plans_leaf _
  | notification code params => exact plans_leaf _
  | land jump => exact plans_leaf _
  | branch body other =>
      cases other with
      | none =>
          refine plans_step fun skip => plans_return ?_ ?_
          · simp
          · simp [Task.code]
      | some otherwise =>
          refine plans_step fun skip => plans_return ?_ ?_
          · simp
            omega
          · simp [Task.code]
  | otherwise skip n =>
      refine plans_step fun done => plans_step fun _ => plans_return ?_ ?_
      · simp
      · simp [Task.code]
  | shortCircuit code right => exact plans_shortCircuit code right
  | definedAccess temp field context => exact plans_leaf _
  | coalesce temp right =>
      refine plans_step fun done => plans_return ?_ ?_
      · simp
      · simp [Task.code]
  | defaultParameter hash value =>
      refine plans_step fun _ => plans_step fun given => plans_return ?_ ?_
      · simp
      · simp [Task.code]
  | whileBody header body =>
      refine plans_step fun exit => plans_return ?_ ?_
      · simp
      · simp [Task.code]
  | forHeader condition step body =>
      refine plans_step fun header => ?_
      cases condition.is "empty" with
      | true =>
          refine plans_return ?_ ?_
          · simp
          · simp [Task.code, loopTest]
      | false =>
          refine plans_return ?_ ?_
          · simp
            omega
          · simp [Task.code, loopTest]
  | forBody header tested step body =>
      cases tested with
      | true =>
          rw [restCode, planRest]
          simp only [if_true, map_eq_pure_bind, bind_assoc, pure_bind]
          refine plans_step fun exit => plans_return ?_ ?_
          · simp
            omega
          · simp [Task.code]
      | false =>
          refine plans_return ?_ ?_
          · simp
            omega
          · simp [Task.code]
  | forStep header exit step =>
      refine plans_step fun continueAt => plans_return ?_ ?_
      · simp
      · simp [Task.code]
  | foreachBody locals key value body =>
      refine plans_step fun legacy => plans_step fun ends => plans_return ?_ ?_
      · simp
      · simp [Task.code]
  | foreachStep locals key header exit =>
      exact plans_step fun continueAt => plans_step fun legacy => plans_leaf _
  | closeLoop header exit continueAt => exact plans_leaf _
  | switchStore key branches =>
      refine plans_step fun _ => plans_return ?_ ?_
      · simp
      · simp [Task.code]
  | switchCase key branches position falling => exact plans_switchCase key branches position falling
  | switchTest key branches position falling => exact plans_switchTest key branches position falling
  | switchEnd => exact plans_leaf _

end Continuations

/-! ## Macros -/

theorem macro_of_named? {table : MacroTable} {n : Node} {name : String} {expression : Node}
    (h : table.named? n = some (name, expression)) :
    ∃ text, n.is "identifier" ∧ n.text? = some text ∧ asciiLower text = name ∧
      table.lookup name = some expression := by
  unfold MacroTable.named? at h
  split at h
  case isTrue hkind =>
      obtain ⟨text, htext, hfound⟩ := Option.bind_eq_some_iff.mp h
      obtain ⟨found, hlookup, hresult⟩ := Option.map_eq_some_iff.mp hfound
      cases hresult
      exact ⟨text, hkind, htext, rfl, hlookup⟩
  case isFalse => cases h

/-- A node that names a macro is lowered as the expression of the macro. -/
theorem lowerNode_of_named? {table : MacroTable} {n : Node} {name : String} {expression : Node}
    (h : table.named? n = some (name, expression)) (expanding : List String) (context : Context) :
    lowerNode (macrosDuring table expanding) n context =
      if name ∈ expanding then cyclicMacro
      else lowerNode (macrosDuring table (name :: expanding)) expression context := by
  obtain ⟨text, hkind, htext, rfl, hlookup⟩ := macro_of_named? h
  have hrule : Kind.ofName? n.kind = some .identifier := by
    rw [eq_of_beq hkind]
    rfl
  have hname : n.text = .ok text := by rw [Node.text, htext]
  rw [lowerNode_eq, Construct.lower, hrule]
  change lowerIdentifier _ n context = _
  have hcode : (macrosDuring table expanding).code? (asciiLower text) = some fun context =>
      if asciiLower text ∈ expanding then cyclicMacro
      else lowerNode (macrosDuring table (asciiLower text :: expanding)) expression context := by
    rw [code?_macrosDuring, hlookup]
    rfl
  have hlift : (liftM (Except.ok text : Except CompileError String) : Lower String) = pure text := rfl
  rw [lowerIdentifier, hname, hlift, pure_bind]
  simp only [hcode]

theorem code?_of_named?_eq_none {table : MacroTable} {n : Node} (h : table.named? n = none)
    (expanding : List String) (hkind : n.is "identifier") :
    ∀ name ∈ n.text?, (macrosDuring table expanding).code? (asciiLower name) = none := by
  intro name hname
  have hlookup : table.lookup (asciiLower name) = none := by
    rw [MacroTable.named?, if_pos hkind, Option.mem_def.mp hname] at h
    simpa using h
  rw [code?_macrosDuring, hlookup]
  rfl

/-! ## Runs -/

/-- The macros that are being expanded when a task is done. -/
def Task.after (expanding : List String) : Task → List String
  | .endMacro => expanding.tail
  | _ => expanding

/-- Several tasks one after the other; yields the macros that are being expanded in the end. -/
def sequel (table : MacroTable) : (expanding : List String) → List Task → Attempt (List String)
  | expanding, [] => return expanding
  | expanding, t :: rest => do
      t.code (macrosDuring table expanding)
      sequel table (t.after expanding) rest

/-- The machine does what a task stands for, and leaves the tasks below it. -/
def Completes (table : MacroTable) (expanding : List String) (t : Task) : Prop :=
  ∀ (s : State) (rest : List Task), ∃ steps,
    Machine.run table steps ⟨s, expanding, t :: rest⟩ =
      (t.code (macrosDuring table expanding) s).map fun r => ⟨r.2, t.after expanding, rest⟩

/-- The machine does what each of several tasks stands for, when it comes to it. -/
def AllComplete (table : MacroTable) : (expanding : List String) → List Task → Prop
  | _, [] => True
  | expanding, t :: rest =>
      Completes table expanding t ∧ AllComplete table (t.after expanding) rest

section Runs

variable {table : MacroTable} {expanding : List String}

theorem Machine.run_add (first second : Nat) (m : Machine) :
    m.run table (first + second) = m.run table first >>= Machine.run table second := by
  induction first generalizing m with
  | zero => rw [Nat.zero_add]; rfl
  | succ first ih =>
      rw [Nat.add_right_comm, Machine.run, Machine.run]
      cases m.step table with
      | error f => rfl
      | ok next => exact ih next

/-- Tasks that complete are done one after the other. -/
theorem exists_run_sequel {tasks : List Task} :
    ∀ {expanding : List String}, AllComplete table expanding tasks → ∀ (s : State)
      (rest : List Task), ∃ steps, Machine.run table steps ⟨s, expanding, tasks ++ rest⟩ =
        (sequel table expanding tasks s).map fun r => ⟨r.2, r.1, rest⟩ := by
  induction tasks with
  | nil => exact fun _ s rest => ⟨0, rfl⟩
  | cons t others ih =>
      intro expanding hall s rest
      obtain ⟨hfirst, hothers⟩ := hall
      obtain ⟨first, hrun⟩ := hfirst s (others ++ rest)
      change ∃ steps, _ = ((t.code (macrosDuring table expanding) s).bind fun r =>
        sequel table (t.after expanding) others r.2).map _
      cases hcode : t.code (macrosDuring table expanding) s with
      | error f =>
          rw [hcode] at hrun
          exact ⟨first, hrun⟩
      | ok r =>
          rw [hcode] at hrun
          obtain ⟨second, hrest⟩ := ih hothers r.2 rest
          refine ⟨first + second, ?_⟩
          rw [Machine.run_add]
          change Machine.run table first ⟨s, expanding, t :: (others ++ rest)⟩ >>= _ = _
          rw [hrun]
          exact hrest

/-- A task completes if starting it and then doing the new tasks is what it stands for, and if the
new tasks complete. -/
theorem completes_of_start {t : Task}
    (hcode : (do t.code (macrosDuring table expanding); return t.after expanding) =
      (do
        let r ← t.start table expanding
        sequel table r.2 r.1))
    (hnew : ∀ {s : State} {r : List Task × List String} {s' : State},
      t.start table expanding s = .ok (r, s') → AllComplete table r.2 r.1) :
    Completes table expanding t := by
  intro s rest
  have hcode := congrFun hcode s
  change (t.code (macrosDuring table expanding) s).bind (fun r => .ok (t.after expanding, r.2)) =
    (t.start table expanding s).bind fun r => sequel table r.1.2 r.1.1 r.2 at hcode
  have hstep : Machine.run table 1 ⟨s, expanding, t :: rest⟩ =
      (t.start table expanding s).bind fun r => .ok ⟨r.2, r.1.2, r.1.1 ++ rest⟩ := by
    rw [Machine.run, Machine.step]
    dsimp only
    cases t.start table expanding s <;> rfl
  cases hstart : t.start table expanding s with
  | error f =>
      rw [hstart] at hcode hstep
      refine ⟨1, ?_⟩
      rw [hstep]
      cases htask : t.code (macrosDuring table expanding) s with
      | error f' => rw [htask] at hcode; cases hcode; rfl
      | ok r => rw [htask] at hcode; cases hcode
  | ok r =>
      rw [hstart] at hcode hstep
      obtain ⟨steps, hrun⟩ := exists_run_sequel (hnew hstart) r.2 rest
      refine ⟨1 + steps, ?_⟩
      rw [Machine.run_add, hstep]
      change Machine.run table steps ⟨r.2, r.1.2, r.1.1 ++ rest⟩ = _
      rw [hrun]
      change (t.code (macrosDuring table expanding) s).bind _ = sequel table r.1.2 r.1.1 r.2 at hcode
      rw [← hcode]
      cases t.code (macrosDuring table expanding) s <;> rfl

theorem after_eq {t : Task} (h : t ≠ .endMacro) : t.after expanding = expanding := by
  cases t with
  | endMacro => exact absurd rfl h
  | node | resume => rfl

theorem sequel_eq_forM {tasks : List Task} (h : ∀ t ∈ tasks, t ≠ .endMacro) :
    sequel table expanding tasks = (do
      forM tasks (Task.code (macrosDuring table expanding))
      return expanding) := by
  induction tasks with
  | nil => simp [sequel]
  | cons t rest ih =>
      rw [sequel, after_eq (h t List.mem_cons_self), ih fun t ht => h t (List.mem_cons_of_mem _ ht)]
      simp

theorem allComplete_of_forall {tasks : List Task}
    (h : ∀ t ∈ tasks, t ≠ .endMacro ∧ Completes table expanding t) :
    AllComplete table expanding tasks := by
  induction tasks with
  | nil => trivial
  | cons t rest ih =>
      obtain ⟨hend, hfirst⟩ := h t List.mem_cons_self
      refine ⟨hfirst, ?_⟩
      rw [after_eq hend]
      exact ih fun t ht => h t (List.mem_cons_of_mem _ ht)

/-- A task that is planned completes if all smaller ones do. -/
theorem completes_of_plans {t : Task} {y : Attempt (List Task)} (hend : t ≠ .endMacro)
    (hstart : t.start table expanding = do return (← y, expanding))
    (hplans : Plans (macrosDuring table expanding) t.size (t.code (macrosDuring table expanding)) y)
    (ih : ∀ t' : Task, t'.Below t.size → Completes table expanding t') :
    Completes table expanding t := by
  have hrun (s : State) : t.start table expanding s =
      (y s).bind fun r => .ok ((r.1, expanding), r.2) := congrFun hstart s
  refine completes_of_start ?_ ?_
  · rw [after_eq hend, hplans.code_eq]
    funext s
    change ((y s).bind _).bind _ = (t.start table expanding s).bind _
    rw [hrun]
    cases hy : y s with
    | error f => rfl
    | ok r =>
        have hsequel : sequel table expanding r.1 = _ :=
          sequel_eq_forM fun t' ht => (hplans.below (hy : y s = .ok (r.1, r.2)) t' ht).2
        exact (congrFun hsequel r.2).symm
  · intro s r s' hr
    rw [hrun] at hr
    cases hy : y s with
    | error f => rw [hy] at hr; cases hr
    | ok result =>
        rw [hy] at hr
        cases hr
        refine allComplete_of_forall fun t' ht => ?_
        have hbelow := hplans.below hy t' ht
        exact ⟨hbelow.2, ih t' hbelow⟩

theorem completes_endMacro : Completes table expanding .endMacro :=
  completes_of_start rfl fun h => by cases h; trivial

/-- A node that names a macro completes if the expression of the macro does. -/
theorem completes_of_named? {n : Node} {name : String} {expression : Node}
    (hnamed : table.named? n = some (name, expression)) (context : Context)
    (h : name ∉ expanding → Completes table (name :: expanding) (.node expression context)) :
    Completes table expanding (.node n context) := by
  have hstart : (Task.node n context).start table expanding =
      if name ∈ expanding then throw (.error cyclicError)
      else return ([.node expression context, .endMacro], name :: expanding) := by
    rw [Task.start, hnamed]
  have hcode := lowerNode_of_named? hnamed expanding context
  by_cases hmem : name ∈ expanding
  · rw [if_pos hmem] at hstart hcode
    refine completes_of_start ?_ fun hr => ?_
    · rw [hstart, Task.code, hcode]
      rfl
    · rw [hstart] at hr
      cases hr
  · rw [if_neg hmem] at hstart hcode
    refine completes_of_start ?_ fun hr => ?_
    · rw [hstart, Task.code, hcode]
      simp [sequel, Task.code, Task.after]
    · rw [hstart] at hr
      cases hr
      exact ⟨h hmem, completes_endMacro, trivial⟩

/-- Every task completes. -/
theorem completes (expanding : List String) (t : Task) : Completes table expanding t := by
  -- the induction is on the macros that can still be expanded, and then on the size of the task
  induction hcount : (unexpanded table expanding).length using Nat.strong_induction_on
    generalizing expanding t with
  | _ count ihcount =>
      subst hcount
      induction hsize : t.size using Nat.strong_induction_on generalizing t with
      | _ size ihsize =>
          subst hsize
          have ih : ∀ t' : Task, t'.Below t.size → Completes table expanding t' :=
            fun t' ht => ihsize _ ht.1 t' rfl
          cases t with
          | endMacro => exact completes_endMacro
          | resume k => exact completes_of_plans nofun rfl (plans_rest k) ih
          | node n context =>
              cases hnamed : table.named? n with
              | none =>
                  refine completes_of_plans nofun ?_
                    (plans_node context (code?_of_named?_eq_none hnamed expanding)) ih
                  rw [Task.start, hnamed]
              | some found =>
                  obtain ⟨text, -, -, -, hlookup⟩ := macro_of_named? hnamed
                  refine completes_of_named? hnamed context fun hnew => ?_
                  exact ihcount _ (length_unexpanded_lt hlookup hnew) _ _ rfl

theorem allComplete (tasks : List Task) :
    ∀ expanding : List String, AllComplete table expanding tasks := by
  induction tasks with
  | nil => exact fun _ => trivial
  | cons t rest ih => exact fun expanding => ⟨completes expanding t, ih _⟩

/-- Tasks that end no macro are done one after the other. -/
theorem exists_run_code {tasks : List Task} (h : ∀ t ∈ tasks, t ≠ .endMacro) (s : State)
    (rest : List Task) : ∃ steps, Machine.run table steps ⟨s, expanding, tasks ++ rest⟩ =
      ((forM tasks (Task.code (macrosDuring table expanding)) : Attempt Unit) s).map fun r =>
        ⟨r.2, expanding, rest⟩ := by
  obtain ⟨steps, hrun⟩ := exists_run_sequel (allComplete tasks expanding) s rest
  refine ⟨steps, hrun.trans ?_⟩
  rw [sequel_eq_forM h]
  change (((forM tasks (Task.code (macrosDuring table expanding)) : Attempt Unit) s).bind _).map _ = _
  cases (forM tasks (Task.code (macrosDuring table expanding)) : Attempt Unit) s <;> rfl

end Runs

/-! ## The stack of tasks and recursion -/

/-- The stack of tasks is recursion.  With a node on top of any tasks, and whatever macros are being
expanded, the machine comes to the tasks below with the state that recursion reaches, and with the
same macros being expanded; or both stop with the same error.  So any tasks are done one after the
other. -/
theorem work_stack_eq_recursion (table : MacroTable) (s : State) (expanding : List String)
    (rest : List Task) :
    (∀ (n : Node) (context : Context), ∃ steps,
      Machine.run table steps ⟨s, expanding, .node n context :: rest⟩ =
        match lowerNode (macrosDuring table expanding) n context s with
        | .ok ((), s') => .ok ⟨s', expanding, rest⟩
        | .error e => .error (.error e)) ∧
    (∀ tasks : List Task, ∃ steps, Machine.run table steps ⟨s, expanding, tasks ++ rest⟩ =
      match sequel table expanding tasks s with
      | .ok (expanding', s') => .ok ⟨s', expanding', rest⟩
      | .error f => .error f) := by
  constructor
  · intro n context
    obtain ⟨steps, hrun⟩ := @completes table expanding (.node n context) s rest
    refine ⟨steps, hrun.trans ?_⟩
    change ((lowerNode (macrosDuring table expanding) n context s).mapError Fault.error).map _ = _
    cases lowerNode (macrosDuring table expanding) n context s <;> rfl
  · intro tasks
    obtain ⟨steps, hrun⟩ := exists_run_sequel (allComplete tasks expanding) s rest
    refine ⟨steps, hrun.trans ?_⟩
    cases sequel table expanding tasks s <;> rfl

end GscAssembler.Lowering
