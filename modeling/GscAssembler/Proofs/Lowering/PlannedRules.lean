import GscAssembler.Proofs.Lowering.Plans

/-!
# Every rule is planned

For each rule, the step of the machine that begins with a node of its kind does what the rule does.
A rule and its step make the same checks and emit the same code up to the first part of the node; from
there on, the planned tasks stand for the rest of the rule.
-/

namespace GscAssembler.Lowering

open Code (Context ForeachLocals Key Opcode)
open Reference (ImportKey)
open SyntaxTree (Node)
open Text (asciiLower)

variable {macros : Macros} {n : Node}

/-! ## Expressions -/

theorem plans_field (context : Context) :
    Plans macros (4 * weight n) (perform (lowerField (constructOf macros n) context))
      (planField n context) := by
  refine plans_child fun object hobject => plans_step fun name => ?_
  refine plans_step fun field => plans_step fun target => plans_return ?_ ?_
  · simp
    omega
  · simp [Task.code]

theorem plans_definedField (context : Context) :
    Plans macros (4 * weight n) (perform (lowerDefinedField (constructOf macros n) context))
      (planDefinedField n context) := by
  refine plans_child fun object hobject => plans_step fun name => ?_
  refine plans_step fun field => plans_step fun temp => plans_return ?_ ?_
  · simp
    omega
  · simp [Task.code, definedAccess]

theorem plans_element (context : Context) :
    Plans macros (4 * weight n) (perform (lowerElement (constructOf macros n) context))
      (planElement n context) := by
  refine plans_child fun index hindex => plans_child fun array harray => plans_return ?_ ?_
  · simp
    omega
  · simp [Task.code]

theorem plans_unary (code : Opcode) :
    Plans macros (4 * weight n) (perform (lowerUnary code (constructOf macros n)))
      (planUnary code n) := by
  refine plans_child fun operand hoperand => plans_return ?_ ?_
  · simp
    omega
  · simp [Task.code]

theorem plans_binary (lookup : String → Option Opcode) :
    Plans macros (4 * weight n) (perform (lowerBinary lookup (constructOf macros n)))
      (planBinary lookup n) := by
  refine plans_step fun token => ?_
  cases lookup token with
  | none => exact plans_throw _
  | some code =>
      refine plans_child fun left hleft => plans_child fun right hright => plans_return ?_ ?_
      · simp
        omega
      · simp [Task.code]

theorem plans_boolean (context : Context) :
    Plans macros (4 * weight n) (perform (lowerBoolean (constructOf macros n) context))
      (planBoolean n context) := by
  unfold lowerBoolean planBoolean constructOf
  dsimp only
  match hchildren : n.children with
  | [] => exact plans_return (by simp) (by simp)
  | [only] =>
      have : weight only < weight n := weight_lt_of_child (by simp [hchildren])
      refine plans_return ?_ ?_
      · simp
        omega
      · simp [Task.code]
  | left :: right :: others =>
      have : weight left < weight n := weight_lt_of_child (by simp [hchildren])
      have : weight right < weight n := weight_lt_of_child (by simp [hchildren])
      refine plans_step fun token => ?_
      cases connective? token with
      | none => exact plans_throw _
      | some found =>
          obtain ⟨tested, code⟩ := found
          refine plans_return ?_ ?_
          · cases tested <;> simp <;> omega
          · cases tested <;> simp [Task.code, Control.shortCircuit_eq]

theorem plans_typeTest (inverted : Bool) :
    Plans macros (4 * weight n) (perform (lowerTypeTest (constructOf macros n) inverted))
      (planTypeTest n inverted) := by
  refine plans_child fun operand hoperand => plans_step fun name => ?_
  have hnegation :
      forM (if inverted then [Task.resume (.op .boolNot)] else []) (Task.code macros) =
      perform (if inverted then emitOp .boolNot else pure ()) := by
    cases inverted <;> simp [Task.code]
  have hbelow : ∀ t ∈ (if inverted then [Task.resume (.op .boolNot)] else []),
      t.Below (4 * weight n) := by
    cases inverted <;> simp
  dsimp only
  generalize (if inverted then [Task.resume (.op .boolNot)] else []) = negation at hnegation hbelow ⊢
  generalize (if inverted then emitOp .boolNot else pure ()) = finish at hnegation ⊢
  generalize asciiLower name = type
  split
  case h_11 =>
    try split
    all_goals first
      | exact plans_throw _
      | contradiction
  case h_1 | h_2 | h_3 | h_4 =>
    refine plans_return ?_ ?_
    · simp
      exact ⟨by omega, hbelow⟩
    · simp [Task.code, hnegation]
  all_goals
    refine plans_step fun key => plans_return ?_ ?_
    · simp [engineTasks]
      exact ⟨by omega, hbelow⟩
    · simp [engineTasks, Task.code, callEngine, hnegation]

theorem plans_cast :
    Plans macros (4 * weight n) (perform (lowerCast (constructOf macros n))) (planCast n) := by
  refine plans_step fun name => ?_
  dsimp only
  generalize asciiLower name = type
  split
  case h_4 =>
    try split
    all_goals first
      | exact plans_throw _
      | contradiction
  all_goals
    refine plans_step fun key => plans_child fun operand hoperand => plans_return ?_ ?_
    · simp [engineTasks]
      omega
    · simp [engineTasks, Task.code, callEngine]

/-- A rule without parts emits all of its code at once. -/
theorem plans_leaf {bound : Nat} (x : Lower Unit) :
    Plans macros bound (perform x) (do x; return []) := by
  have h : Plans macros bound (perform (x >>= pure)) (liftM x >>= fun _ => pure []) :=
    plans_step fun _ => plans_return (by simp) (by simp)
  rwa [bind_pure] at h

theorem plans_functionPointer (bound : Nat) :
    Plans macros bound (perform (lowerFunctionPointer (constructOf macros n)))
      (planFunctionPointer n) := by
  unfold lowerFunctionPointer planFunctionPointer
  refine plans_step fun name => plans_step fun function => plans_step fun own => ?_
  rw [findPart?_constructOf]
  cases n.findChild? "namespace" with
  | none => exact plans_step fun legacy => plans_leaf _
  | some child =>
      simp only [Option.map_some, node_fragment]
      exact plans_step fun text => plans_step fun hash => plans_step fun legacy => plans_leaf _

theorem plans_name (bound : Nat) (context : Context)
    (hname : ∀ name ∈ n.text?, macros.code? (asciiLower name) = none) :
    Plans macros bound (perform (lowerIdentifier macros n context)) (planName n context) := by
  refine plans_check fun name htext => ?_
  rw [hname name (text?_of_text htext)]
  refine plans_step fun revision => ?_
  cases Code.builtinObject? revision name (context.has .isRef) with
  | some object => exact plans_leaf _
  | none =>
      refine plans_step fun hash => ?_
      exact plans_leaf _

theorem plans_coalesce :
    Plans macros (4 * weight n) (perform (lowerCoalesce (constructOf macros n)))
      (planCoalesce n) := by
  refine plans_step fun temp => plans_child fun left hleft => plans_child fun right hright => ?_
  refine plans_return ?_ ?_
  · simp
    omega
  · simp [Task.code, coalesce, keepDefined]

theorem plans_vector :
    Plans macros (4 * weight n) (perform (lowerVector (constructOf macros n))) (planVector n) := by
  refine plans_child fun x hx => plans_child fun y hy => plans_child fun z hz => ?_
  refine plans_return ?_ ?_
  · simp
    omega
  · simp [Task.code]

/-! ## Pieces that ask for the target

A step may ask for the target at another time than the rule does.  No code in between changes it.
-/

section Target

variable {α β : Type}

theorem isLegacy_comm (x : Lower α) [Wording α] [hx : Orderly True (.all True) x]
    (f : Bool → α → Lower β) :
    (do
      let legacy ← isLegacy
      let a ← x
      f legacy a) =
    (do
      let a ← x
      let legacy ← isLegacy
      f legacy a) := by
  funext s
  cases hrun : x s with
  | error e =>
      change (x >>= fun a => f s.script.target.isLegacy a) s = _
      rw [Control.bind_of_eq_error hrun, Control.bind_of_eq_error hrun]
  | ok r =>
      rw [Control.bind_of_eq_ok hrun]
      change (x >>= fun a => f s.script.target.isLegacy a) s = _
      rw [Control.bind_of_eq_ok hrun, ← hx.target_eq hrun]
      rfl

/-- The answer stays the same. -/
theorem isLegacy_again (x : Bool → Lower α) [Wording α] [∀ legacy, Orderly True (.all True) (x legacy)]
    (f : α → Bool → Lower β) :
    (do
      let legacy ← isLegacy
      let a ← x legacy
      f a legacy) =
    (do
      let legacy ← isLegacy
      let a ← x legacy
      let again ← isLegacy
      f a again) := by
  have hcomm (legacy : Bool) := isLegacy_comm (x legacy) fun again a => f a again
  simp only [← hcomm]
  rfl

instance (legacy : Bool) (locals : ForeachLocals) (key value : UInt32) :
    Orderly True (.all True) (openForeach legacy locals key value) := by
  unfold openForeach
  cases legacy <;> infer_instance

theorem foreachLoop_eq_parts (locals : ForeachLocals) (key value : UInt32)
    (collection body : Lower Unit) [Orderly True (.all True) collection]
    [Orderly True (.all True) body] :
    foreachLoop locals key value collection body = (do
      collection
      let legacy ← isLegacy
      let ends ← openForeach legacy locals key value
      body
      let continueAt ← lastKey
      let again ← isLegacy
      closeForeach again locals key ends.1 ends.2 continueAt) := by
  have hagain := isLegacy_again
    (fun legacy => do
      let ends ← openForeach legacy locals key value
      body
      let continueAt ← lastKey
      return (ends, continueAt))
    fun keys legacy => closeForeach legacy locals key keys.1.1 keys.1.2 keys.2
  simp only [bind_assoc, pure_bind] at hagain
  calc foreachLoop locals key value collection body
      = (do
          let legacy ← isLegacy
          collection
          let ends ← openForeach legacy locals key value
          body
          let continueAt ← lastKey
          closeForeach legacy locals key ends.1 ends.2 continueAt) := by
        refine bind_congr fun legacy => ?_
        cases legacy <;> simp [openForeach, closeForeach]
    _ = _ := isLegacy_comm collection fun legacy _ => do
        let ends ← openForeach legacy locals key value
        body
        let continueAt ← lastKey
        closeForeach legacy locals key ends.1 ends.2 continueAt
    _ = _ := bind_congr fun _ => hagain

end Target

/-! ## Statements -/

theorem plans_while :
    Plans macros (4 * weight n) (perform (lowerWhile (constructOf macros n))) (planWhile n) := by
  refine plans_child fun condition hcondition => plans_child fun body hbody => ?_
  refine plans_step fun _ => plans_step fun header => plans_return ?_ ?_
  · simp
    omega
  · simp [Task.code]

theorem plans_for :
    Plans macros (4 * weight n) (perform (lowerFor (constructOf macros n))) (planFor n) := by
  refine plans_child fun start hstart => plans_child fun condition hcondition => ?_
  refine plans_child fun step hstep => plans_child fun body hbody => ?_
  refine plans_step fun _ => plans_return ?_ ?_
  · simp
    omega
  · simp [Task.code, Fragment.is, Node.is]

theorem plans_if (needsElse : Bool) :
    Plans macros (4 * weight n) (perform (lowerIf (constructOf macros n) needsElse))
      (planIf n needsElse) := by
  unfold lowerIf planIf
  have hparts : (constructOf macros n).parts[2]? = n.children[2]?.map (fragment macros) :=
    List.getElem?_map
  rw [hparts]
  cases hother : n.children[2]? with
  | none =>
      cases needsElse with
      | true => exact plans_throw _
      | false =>
          refine plans_child fun condition hcondition => plans_child fun body hbody => ?_
          refine plans_return ?_ ?_
          · simp
            omega
          · simp [Task.code, Control.ifThen_eq]
  | some otherwise =>
      have := weight_lt_of_child (n := n) (List.mem_of_getElem? hother)
      have hplan : Plans macros (4 * weight n)
          (perform do
            let condition ← (constructOf macros n).part 0
            let body ← (constructOf macros n).part 1
            ifThenElse condition.lowerValue body.lowerValue (fragment macros otherwise).lowerValue)
          (do
            let condition ← n.child 0
            let body ← n.child 1
            return [.node condition .plain, .resume (.branch body (some otherwise))]) := by
        refine plans_child fun condition hcondition => plans_child fun body hbody => ?_
        refine plans_return ?_ ?_
        · simp
          omega
        · simp [Task.code, Control.ifThenElse_eq]
      cases needsElse <;> exact hplan

theorem plans_foreach [∀ n context, Orderly True (.all True) (lowerNode macros n context)]
    (withKey : Bool) :
    Plans macros (4 * weight n) (perform (lowerForeach (constructOf macros n) withKey))
      (planForeach n withKey) := by
  have hloop (locals : ForeachLocals) (offset : Nat) (key : UInt32) : Plans macros (4 * weight n)
      (perform do
        let value ← namedLocal (← (constructOf macros n).part offset).node
        let collection ← (constructOf macros n).part (offset + 1)
        let body ← (constructOf macros n).part (offset + 2)
        foreachLoop locals key value collection.lowerValue body.lowerValue)
      (do
        let value ← namedLocal (← n.child offset)
        let collection ← n.child (offset + 1)
        let body ← n.child (offset + 2)
        return [.node collection .plain, .resume (.foreachBody locals key value body)]) := by
    refine plans_child fun named hnamed => ?_
    rw [node_fragment]
    refine plans_step fun value => plans_child fun collection hcollection => ?_
    refine plans_child fun body hbody => plans_return ?_ ?_
    · simp
      omega
    · simp [foreachLoop_eq_parts, Task.code]
  unfold lowerForeach planForeach
  refine plans_step fun locals => ?_
  cases withKey with
  | false => exact hloop locals 0 locals.key
  | true =>
      refine plans_child fun named hnamed => ?_
      rw [node_fragment]
      exact plans_step fun key => hloop locals 1 key

theorem defaultLast_map (macros : Macros) (branches : List Node) :
    defaultLast (branches.map (fragment macros)) =
      (defaultNodeLast branches).map (fragment macros) := by
  have his : (fun f : Fragment => f.is "default") ∘ fragment macros = fun n => n.is "default" := by
    funext n
    simp [Fragment.is]
  unfold defaultLast defaultNodeLast
  rw [List.findIdx?_map, his]
  cases branches.findIdx? (·.is "default") with
  | none => rfl
  | some position =>
      simp only [List.eraseIdx_map, List.getElem?_map, List.map_append, Option.toList_map]

theorem weightAll_defaultNodeLast (branches : List Node) :
    weightAll (defaultNodeLast branches) = weightAll branches := by
  rw [weightAll_eq_sum, weightAll_eq_sum]
  refine (List.Perm.map weight ?_).sum_eq
  unfold defaultNodeLast
  split
  · rfl
  · rename_i position hposition
    obtain ⟨hlt, -⟩ := List.findIdx?_eq_some_iff_getElem.mp hposition
    rw [List.getElem?_eq_getElem hlt, Option.toList_some]
    exact List.perm_append_comm.trans (List.getElem_cons_eraseIdx_perm hlt)

theorem plans_switch :
    Plans macros (4 * weight n) (perform (lowerSwitch (constructOf macros n))) (planSwitch n) := by
  unfold lowerSwitch planSwitch
  refine plans_step fun key => ?_
  rw [part_constructOf]
  unfold Node.child
  cases hchildren : n.children with
  | nil => exact plans_throw _
  | cons value branches =>
      have hweight := weight_eq n
      rw [hchildren, weightAll] at hweight
      have hdrop : (constructOf macros n).parts.drop 1 = branches.map (fragment macros) := by
        simp [constructOf, hchildren]
      have hsuffix : suffixFrom (value :: branches) 1 = pure branches := by
        simp [suffixFrom]
      have hfind : (branches.map (fragment macros)).find?
          (fun b => !b.is "case" && !b.is "default") =
          (branches.find? fun b => !b.is "case" && !b.is "default").map (fragment macros) := by
        rw [List.find?_map]
        congr 2
        funext b
        simp [Fragment.is]
      simp only [hdrop, hsuffix, hfind, pure_bind, List.getElem?_cons_zero, Except.map]
      cases branches.find? fun b => !b.is "case" && !b.is "default" with
      | some other =>
          simp only [Option.map_some, node_fragment]
          exact plans_throw _
      | none =>
          have htasks : Plans macros (4 * weight n)
              (perform (switchOn key (fragment macros value).lowerValue
                ((defaultLast (branches.map (fragment macros))).map switchBranch)))
              (do
                enterLoop
                return [.node value .plain,
                  .resume (.switchStore key (defaultNodeLast branches))]) := by
            rw [defaultLast_map, List.map_map]
            refine plans_step fun _ => plans_return ?_ ?_
            · simp [weightAll_defaultNodeLast]
              omega
            · simp [Task.code]
              rfl
          exact htasks

theorem plans_returnStatement :
    Plans macros (4 * weight n) (perform (lowerReturn (constructOf macros n))) (planReturn n) := by
  unfold lowerReturn planReturn constructOf
  dsimp only
  cases hchildren : n.children with
  | nil => exact plans_leaf _
  | cons value others =>
      have : weight value < weight n := weight_lt_of_child (by simp [hchildren])
      refine plans_return ?_ ?_
      · simp
        omega
      · simp [Task.code]

theorem forM_elementTasks (target : Node) (elements : List Node) (position : Nat) :
    forM (elementTasks target position elements) (Task.code macros) =
      perform (assignElements (fragment macros target) position
        (elements.map (fragment macros))) := by
  induction elements generalizing position with
  | nil => simp [elementTasks, assignElements]
  | cons element rest ih =>
      simp [elementTasks, assignElements, ih, Task.code]

theorem below_elementTasks {bound : Nat} {target : Node} (htarget : 4 * weight target < bound)
    {elements : List Node} (helements : ∀ e ∈ elements, 4 * weight e < bound) (position : Nat) :
    ∀ t ∈ elementTasks target position elements, t.Below bound := by
  induction elements generalizing position with
  | nil => simp [elementTasks]
  | cons element rest ih =>
      have hrest := ih (fun e he => helements e (List.mem_cons_of_mem _ he)) (position + 1)
      have := helements element List.mem_cons_self
      intro t ht
      simp only [elementTasks, List.mem_append] at ht
      rcases ht with ht | ht
      · revert t
        simp
        omega
      · exact hrest t ht

theorem plans_assignment :
    Plans macros (4 * weight n) (perform (lowerAssignment (constructOf macros n)))
      (planAssignment n) := by
  refine plans_step fun token => plans_child fun target htarget => ?_
  split
  case h_1 | h_2 =>
    refine plans_return ?_ ?_
    · simp
      omega
    · simp [Task.code]
  case h_3 =>
    refine plans_child fun value hvalue => ?_
    rw [show (fragment macros value).is "shortHandArray" = value.is "shortHandArray" by
      simp [Fragment.is]]
    split
    · have helements : ∀ e ∈ value.children, 4 * weight e < 4 * weight n := fun e he => by
        have := weight_lt_of_child he
        omega
      refine plans_return ?_ ?_
      · simp [assignTasks]
        exact ⟨by omega, below_elementTasks (by omega) helements 0⟩
      · simp [assignTasks, assignTo, Task.code, forM_elementTasks]
    · refine plans_return ?_ ?_
      · simp [assignTasks]
        omega
      · simp [assignTasks, assignTo, Task.code]
  case h_4 =>
    refine plans_step fun temp => plans_child fun value hvalue => plans_return ?_ ?_
    · simp [assignTasks]
      omega
    · simp [assignTasks, assignTo, Task.code, coalesce, keepDefined]
  case h_5 =>
    cases compoundOp? token with
    | none =>
        dsimp only
        try split
        all_goals first
          | exact plans_throw _
          | contradiction
    | some code =>
        have hplan : Plans macros (4 * weight n)
            (perform do
              let value ← (constructOf macros n).part 1
              (fragment macros target).lowerValue
              value.lowerValue
              emitOp code
              assignTo (fragment macros target))
            (do
              let value ← n.child 1
              return [.node target .plain, .node value .plain, .resume (.op code)] ++
                assignTasks target) := by
          refine plans_child fun value hvalue => plans_return ?_ ?_
          · simp [assignTasks]
            omega
          · simp [assignTasks, assignTo, Task.code]
        dsimp only
        try split
        all_goals first
          | exact hplan
          | contradiction

/-! ## Calls -/

/-- The parts of a call by its nodes. -/
def CallNodes.parts (macros : Macros) (p : CallNodes) : CallParts where
  arguments := p.arguments.map (fragment macros)
  caller := p.caller.map (fragment macros)
  pointer := p.pointer.map (fragment macros)
  namespaceName := p.namespaceName
  threaded := p.threaded

/-- Every node of a call is below the call. -/
structure CallNodes.Within (p : CallNodes) (bound : Nat) : Prop where
  /-- The arguments are. -/
  arguments : ∀ a ∈ p.arguments, weight a < bound
  /-- The object is. -/
  caller : ∀ c ∈ p.caller, weight c < bound
  /-- The function pointer is. -/
  pointer : ∀ c ∈ p.pointer, weight c < bound

theorem construct_fragment (macros : Macros) (n : Node) :
    (fragment macros n).construct = constructOf macros n := by
  simp [Fragment.construct, constructOf]

theorem innerPart?_constructOf (macros : Macros) (n : Node) (kind : String) :
    innerPart? (constructOf macros n) kind =
      (innerChild? n kind).map (Option.map (fragment macros)) := by
  unfold innerPart? innerChild?
  rw [findPart?_constructOf]
  cases n.findChild? kind with
  | none => rfl
  | some child =>
      simp only [Option.map_some, construct_fragment, part_constructOf]
      cases child.child 0 <;> rfl

theorem callParts_constructOf (macros : Macros) (n : Node) :
    callParts (constructOf macros n) = (callNodes n).map (CallNodes.parts macros) := by
  have harguments :
      (((n.findChild? "arguments").map (fragment macros)).map Fragment.parts).getD [] =
      (((n.findChild? "arguments").map Node.children).getD []).map (fragment macros) := by
    cases n.findChild? "arguments" <;> simp
  unfold callParts callNodes
  simp only [innerPart?_constructOf, harguments, List.length_map, findPart?_constructOf]
  generalize ((n.findChild? "arguments").map Node.children).getD [] = arguments
  cases innerChild? n "caller" with
  | error e => rfl
  | ok caller =>
      cases innerChild? n "pointer" with
      | error e => rfl
      | ok pointer =>
          cases n.findChild? "namespace" with
          | none =>
              cases requireAtMost "call parameters" arguments.length maxParameters <;>
                simp [Except.map] <;> rfl
          | some child =>
              simp only [Option.map_some, node_fragment]
              cases child.text with
              | error e => rfl
              | ok text =>
                  cases requireAtMost "call parameters" arguments.length maxParameters <;>
                    simp [Except.map] <;> rfl

theorem weight_lt_of_findChild? {kind : String} {child : Node} (h : n.findChild? kind = some child) :
    weight child < weight n :=
  weight_lt_of_child (List.mem_of_find?_eq_some h)

theorem weight_lt_of_innerChild? {kind : String} {child : Node}
    (h : innerChild? n kind = .ok (some child)) : weight child < weight n := by
  unfold innerChild? at h
  split at h
  case h_1 outer houter =>
      obtain ⟨inner, hinner, hresult⟩ := Control.except_bind_eq_ok.mp h
      cases hresult
      exact (weight_lt_of_child (mem_children_of_child hinner)).trans
        (weight_lt_of_findChild? houter)
  case h_2 => cases h

theorem within_callNodes {p : CallNodes} (h : callNodes n = .ok p) : p.Within (weight n) := by
  obtain ⟨caller, hcaller, h⟩ := Control.except_bind_eq_ok.mp h
  obtain ⟨pointer, hpointer, h⟩ := Control.except_bind_eq_ok.mp h
  have hresult : p.arguments = ((n.findChild? "arguments").map Node.children).getD [] ∧
      p.caller = caller ∧ p.pointer = pointer := by
    unfold requireAtMost at h
    dsimp only at h
    split at h
    · obtain ⟨name, -, h⟩ := Control.except_bind_eq_ok.mp h
      split at h <;> cases h
      exact ⟨rfl, rfl, rfl⟩
    · split at h <;> cases h
      exact ⟨rfl, rfl, rfl⟩
  obtain ⟨harguments, rfl, rfl⟩ := hresult
  refine ⟨fun a ha => ?_, fun c hc => ?_, fun c hc => ?_⟩
  · rw [harguments] at ha
    cases hfound : n.findChild? "arguments" with
    | none => simp [hfound] at ha
    | some list =>
        rw [hfound] at ha
        exact (weight_lt_of_child ha).trans (weight_lt_of_findChild? hfound)
  · rw [hc] at hcaller
    exact weight_lt_of_innerChild? hcaller
  · rw [hc] at hpointer
    exact weight_lt_of_innerChild? hpointer

@[simp] theorem context_parts (p : CallNodes) (outer : Context) :
    (p.parts macros).context outer = p.context outer := by
  simp [CallParts.context, CallNodes.context, CallNodes.parts]

theorem forM_values (nodes : List Node) :
    forM (Task.values nodes) (Task.code macros) =
      perform (lowerValues (nodes.map (fragment macros))) := by
  simp [Task.values, lowerValues, Task.code]

theorem forM_reversed (p : CallNodes) :
    forM p.reversed (Task.code macros) = perform (p.parts macros).lowerArguments := by
  rw [CallNodes.reversed, forM_values, CallParts.lowerArguments, CallNodes.parts, List.map_reverse]

theorem forM_operands (p : CallNodes) :
    forM p.operands (Task.code macros) = perform (p.parts macros).lowerOperands := by
  have hcaller : forM (Task.values p.caller.toList) (Task.code macros) =
      perform ((p.parts macros).caller.forM Fragment.lowerValue) := by
    cases hcaller : p.caller with
    | none => simp [CallNodes.parts, hcaller, Task.values]
    | some caller => simp [CallNodes.parts, hcaller, Task.values, Task.code]
  simp [CallNodes.operands, CallParts.lowerOperands, forM_reversed, hcaller, Task.code]

section Calls

variable {p : CallNodes} (hp : p.Within (weight n))

include hp

theorem below_reversed : ∀ t ∈ p.reversed, t.Below (4 * weight n) := by
  intro t ht
  simp only [CallNodes.reversed, Task.values, List.mem_map, List.mem_reverse] at ht
  obtain ⟨a, ha, rfl⟩ := ht
  have := hp.arguments a ha
  rw [below_node]
  omega

theorem below_operands : ∀ t ∈ p.operands, t.Below (4 * weight n) := by
  have hcaller : ∀ t ∈ Task.values p.caller.toList, t.Below (4 * weight n) := by
    intro t ht
    simp only [Task.values, List.mem_map, Option.mem_toList] at ht
    obtain ⟨c, hc, rfl⟩ := ht
    have := hp.caller c hc
    rw [below_node]
    omega
  simp only [CallNodes.operands, List.cons_append, List.mem_cons, List.mem_append]
  rintro t (rfl | ht | ht)
  · simp
  · exact below_reversed hp t ht
  · exact hcaller t ht

theorem plans_notifier (code : Opcode) {caller : Node} (hcaller : caller ∈ p.caller)
    (context : Context) :
    Plans macros (4 * weight n)
      (perform (lowerNotifier code (p.parts macros) (fragment macros caller) context))
      (planNotifier code p caller context) := by
  have hweight := hp.caller caller hcaller
  have hreversed := below_reversed hp
  have hplain : Plans macros (4 * weight n)
      (perform do
        (p.parts macros).lowerArguments
        lowerObject (fragment macros caller) .plain
        emitOp code)
      (pure (p.reversed ++ [.resume (.object caller .plain), .resume (.op code)])) := by
    refine plans_return ?_ ?_
    · simp only [List.forall_mem_append]
      refine ⟨hreversed, ?_⟩
      simp
      omega
    · simp [forM_reversed, Task.code]
  have hnotify : Plans macros (4 * weight n)
      (perform do
        emitOp .preScriptCall
        (p.parts macros).lowerArguments
        lowerObject (fragment macros caller) .plain
        emitOp code)
      (pure (.resume (.op .preScriptCall) ::
        (p.reversed ++ [.resume (.object caller .plain), .resume (.op code)]))) := by
    refine plans_return ?_ ?_
    · simp only [List.forall_mem_cons, List.forall_mem_append]
      refine ⟨?_, hreversed, ?_⟩ <;> simp
      omega
    · simp [forM_reversed, Task.code]
  unfold lowerNotifier planNotifier
  refine plans_step fun revision => ?_
  cases revision with
  | legacy =>
      split
      case h_1 =>
          have hparts : (p.parts macros).arguments = p.arguments.map (fragment macros) := rfl
          rw [hparts]
          cases hargs : p.arguments with
          | nil => exact plans_throw _
          | cons event bound =>
              have hevent := hp.arguments event (by simp [hargs])
              have hbound : ∀ t ∈ bound.map (Task.node · .waittill), t.Below (4 * weight n) := by
                simp only [List.mem_map, forall_exists_index, and_imp, forall_apply_eq_imp_iff₂,
                  below_node]
                intro a ha
                have := hp.arguments a (by simp [hargs, ha])
                omega
              refine plans_return ?_ ?_
              · simp only [List.forall_mem_cons, List.forall_mem_append, below_node, below_resume,
                  Continuation.size]
                exact ⟨by omega, by omega, by omega, hbound, by omega, by simp⟩
              · simp [Task.code]
      case h_2 => exact hnotify
      case h_3 =>
          try split
          all_goals first
            | exact hplain
            | contradiction
      case h_4 => contradiction
  | rev36 =>
      split
      case h_1 => contradiction
      case h_2 => exact hnotify
      case h_3 => contradiction
      case h_4 =>
          try split
          all_goals first
            | contradiction
            | refine plans_return ?_ ?_
          · simp only [List.forall_mem_append]
            refine ⟨hreversed, ?_⟩
            split <;> simp <;> omega
          · have hparams : UInt8.ofNat (p.parts macros).arguments.length = p.params := by
              simp [CallNodes.parts, CallNodes.params]
            dsimp only
            split <;> simp [forM_reversed, hparams, Task.code]

theorem plans_builtinCall (name : String) (context : Context) :
    Plans macros (4 * weight n) (perform (lowerBuiltinCall name (p.parts macros) context))
      (planBuiltinCall name p context) := by
  unfold lowerBuiltinCall planBuiltinCall
  refine plans_step fun revision => ?_
  cases hcaller : p.caller with
  | none =>
      have hparts : (p.parts macros).caller = none := by simp [CallNodes.parts, hcaller]
      rw [hparts]
      dsimp only
      cases Code.builtinCall? revision name with
      | none => exact plans_throw _
      | some code =>
          refine plans_return ?_ ?_
          · simp only [List.forall_mem_append]
            exact ⟨below_reversed hp, by simp⟩
          · simp [forM_reversed, Task.code]
  | some caller =>
      have hparts : (p.parts macros).caller = some (fragment macros caller) := by
        simp [CallNodes.parts, hcaller]
      rw [hparts]
      dsimp only
      cases Code.notifier? revision name with
      | none => exact plans_throw _
      | some code => exact plans_notifier hp code hcaller context

omit hp in
theorem below_dropTasks (context : Context) : ∀ t ∈ dropTasks context, t.Below (4 * weight n) := by
  unfold dropTasks
  split <;> simp

omit hp in
theorem forM_dropTasks (context : Context) :
    forM (dropTasks context) (Task.code macros) =
      perform (if context.has .decTop then emitOp .decTop else pure ()) := by
  unfold dropTasks
  split <;> simp [Task.code]

theorem plans_namedCall (name : String) (context : Context) :
    Plans macros (4 * weight n)
      (perform do
        lowerNamedCall name (p.parts macros) context
        if context.has .decTop then emitOp .decTop)
      (planNamedCall name p context) := by
  have hparams : UInt8.ofNat (p.parts macros).arguments.length = p.params := by
    simp [CallNodes.parts, CallNodes.params]
  have hname : (p.parts macros).namespaceName = p.namespaceName := rfl
  have hcall (namespaceHash : UInt32) : Plans macros (4 * weight n)
      (perform do
        let function ← hashName name
        let flags ← callFlags name namespaceHash context
        (p.parts macros).lowerOperands
        emitCall (callOpcode context) { function, namespaceHash, params := p.params, flags }
        if context.has .decTop then emitOp .decTop)
      (do
        let function ← hashName name
        let flags ← callFlags name namespaceHash context
        let key := { function, namespaceHash, params := p.params, flags }
        return p.operands ++ [.resume (.call (callOpcode context) key)] ++ dropTasks context) := by
    refine plans_step fun function => plans_step fun flags => plans_return ?_ ?_
    · simp only [List.forall_mem_append]
      exact ⟨⟨below_operands hp, by simp⟩, below_dropTasks context⟩
    · simp [forM_operands, forM_dropTasks, Task.code]
  unfold lowerNamedCall planNamedCall
  rw [hname, hparams]
  cases p.namespaceName with
  | none =>
      simp only [bind_assoc]
      exact plans_step hcall
  | some namespaceName =>
      simp only [bind_assoc]
      exact plans_step hcall

theorem plans_callOf (context : Context) :
    Plans macros (4 * weight n)
      (perform (
        match (p.parts macros).pointer with
        | some pointer => do
            lowerPointerCall (p.parts macros) pointer context
            if context.has .decTop then emitOp .decTop
        | none => do
            let name := asciiLower (← n.text)
            let plain := (p.parts macros).namespaceName.isNone && !context.has .threaded
            if plain && isBuiltinName (← getRevision) name then
              lowerBuiltinCall name (p.parts macros) context
            else
              lowerNamedCall name (p.parts macros) context
              if context.has .decTop then emitOp .decTop))
      (planCallOf n p context) := by
  have hparams : UInt8.ofNat (p.parts macros).arguments.length = p.params := by
    simp [CallNodes.parts, CallNodes.params]
  unfold planCallOf
  cases hpointer : p.pointer with
  | some pointer =>
      have hparts : (p.parts macros).pointer = some (fragment macros pointer) := by
        simp [CallNodes.parts, hpointer]
      have hweight := hp.pointer pointer hpointer
      rw [hparts]
      refine plans_return ?_ ?_
      · simp only [List.forall_mem_append]
        refine ⟨⟨below_operands hp, ?_⟩, below_dropTasks context⟩
        simp
        omega
      · simp [lowerPointerCall, forM_operands, forM_dropTasks, hparams, Task.code]
  | none =>
      have hparts : (p.parts macros).pointer = none := by simp [CallNodes.parts, hpointer]
      have hname : (p.parts macros).namespaceName = p.namespaceName := rfl
      rw [hparts, hname]
      refine plans_step fun text => plans_step fun revision => ?_
      split
      · exact plans_builtinCall hp _ context
      · exact plans_namedCall hp _ context

end Calls

theorem plans_call (context : Context) :
    Plans macros (4 * weight n) (perform (lowerCall (constructOf macros n) context))
      (planCall n context) := by
  unfold lowerCall planCall
  rw [callParts_constructOf]
  cases hcall : callNodes n with
  | error e => exact plans_throw _
  | ok p =>
      have hcontext : p.context context = (p.parts macros).context context :=
        (context_parts p context).symm
      change Plans macros _ _ (planCallOf n p (p.context context))
      rw [hcontext]
      exact plans_callOf (within_callNodes hcall) _

end GscAssembler.Lowering
