import GscAssembler.Proofs.Lowering.Orderly

/-!
# Every rule is orderly

A rule is made of steps if the fragments it is given are, and it uses no names but those of its
nodes and the compiler's own.  The checks that a rule makes of its node fail with errors that are not
about macros, so all that remains are the macros: what the rule for identifiers does depends on them.
-/

namespace GscAssembler.Lowering

open Code (Context ForeachLocals LoopJump Opcode)
open Number (Constant)
open Reference (ImportKey)
open SyntaxTree (Node)

variable {α β : Type} {given : Prop} {v : Vocabulary}

/-! ## Checks of nodes -/

theorem malformed_ne_cyclic (n : Node) {reason : String} (h : reason ≠ "macro expands to itself") :
    n.malformed reason ≠ cyclicError :=
  fun heq => h (CompileError.malformedNode.inj heq).2

theorem text_ne_cyclic (n : Node) : n.text ≠ .error cyclicError := by
  unfold Node.text
  split
  · exact nofun
  · exact fun h => malformed_ne_cyclic n (by decide) (Except.error.inj h)

theorem part_ne_cyclic (c : Construct) (position : Nat) : c.part position ≠ .error cyclicError := by
  unfold Construct.part
  split
  · exact nofun
  · exact fun h => malformed_ne_cyclic c.node (by decide) (Except.error.inj h)

/-- An error that is not about macros, as the answer of a check. -/
theorem bind_ne_cyclic {x : Except CompileError α} {f : α → Except CompileError β}
    (hx : x ≠ .error cyclicError) (hf : ∀ a, f a ≠ .error cyclicError) :
    (x >>= f) ≠ .error cyclicError := by
  cases x with
  | error e => exact fun h => hx (congrArg Except.error (Except.error.inj h))
  | ok a => exact hf a

theorem orderly_liftM [Wording α] {x : Except CompileError α} (hx : x ≠ .error cyclicError)
    (hknown : ∀ a, x = .ok a → Known given v a) : Orderly given v (liftM x : Lower α) := by
  rw [← bind_pure (liftM x)]
  refine orderly_check hx fun a ha => ?_
  have := hknown a ha
  infer_instance

theorem text?_of_text {n : Node} {text : String} (h : n.text = .ok text) : n.text? = some text := by
  unfold Node.text at h
  split at h
  · cases h; assumption
  · cases h

instance (n : Node) [h : Known given v n] : Orderly given v (liftM n.text : Lower String) :=
  orderly_liftM (text_ne_cyclic n) fun _ htext => h.text (text?_of_text htext)

/-! ## Fragments -/

/-- A fragment whose code, and that of all fragments in it, is orderly. -/
class inductive Fragment.Orderly (v : Vocabulary) : Fragment → Prop where
  | mk {node : Node} {parts : List Fragment} {code : Context → Lower Unit}
      (hnode : Known True v node) (hparts : ∀ p ∈ parts, Fragment.Orderly v p)
      (hcode : ∀ context, Lowering.Orderly True v (code context)) :
      Fragment.Orderly v (.mk node parts code)

instance {f : Fragment} [hf : f.Orderly v] (context : Context) :
    Orderly given v (f.lower context) := by
  cases hf with
  | mk _ _ hcode => exact ⟨(hcode context).composed.weaken fun _ => trivial⟩

instance {f : Fragment} [f.Orderly v] : Orderly given v f.lowerValue :=
  inferInstanceAs (Orderly given v (f.lower .plain))

instance {f : Fragment} [hf : f.Orderly v] : Known given v f.node := by
  cases hf with
  | mk hnode _ _ => exact ⟨fun _ => hnode.known trivial⟩

theorem Fragment.Orderly.parts {f : Fragment} (hf : f.Orderly v) : ∀ p ∈ f.parts, p.Orderly v := by
  cases hf with
  | mk _ hparts _ => exact hparts

theorem orderly_lowerValues {fragments : List Fragment} (h : ∀ f ∈ fragments, f.Orderly v) :
    Orderly given v (lowerValues fragments) :=
  orderly_forM fun f hf => have := h f hf; inferInstance

/-- A node with fragments that are orderly. -/
class Construct.Orderly (v : Vocabulary) (c : Construct) : Prop where
  /-- The vocabulary has the names of the node. -/
  node : Known True v c.node
  /-- The fragments are orderly. -/
  parts : ∀ p ∈ c.parts, p.Orderly v

instance {c : Construct} [hc : c.Orderly v] : Known given v c.node :=
  ⟨fun _ => hc.node.known trivial⟩

instance {f : Fragment} [hf : f.Orderly v] : f.construct.Orderly v where
  node := inferInstanceAs (Known True v f.node)
  parts := hf.parts

theorem mem_parts_of_part {c : Construct} {position : Nat} {p : Fragment}
    (h : c.part position = .ok p) : p ∈ c.parts := by
  unfold Construct.part at h
  split at h
  case h_1 q hq =>
      cases h
      exact List.mem_of_getElem? hq
  case h_2 => cases h

/-! ## Expressions -/

instance (name : String) [Known given v name] : Orderly given v (engineImport name) := by
  unfold engineImport
  infer_instance

instance (key : ImportKey) [Known given v key] {argument : Lower Unit} [Orderly given v argument] :
    Orderly given v (callEngine key argument) := by
  unfold callEngine
  infer_instance

instance (name : String) [Known given v name] (object : Code.BuiltinObject) (isRef : Bool) :
    Orderly given v (emitBuiltin name object isRef) := by
  unfold emitBuiltin
  cases object <;> infer_instance

theorem orderly_lowerIdentifier {macros : Macros} {n : Node} [hn : Known given v n]
    {context : Context} (h : ∀ name ∈ n.text?, ∀ code ∈ macros.code? (Text.asciiLower name),
      Orderly given v (code context)) :
    Orderly given v (lowerIdentifier macros n context) := by
  unfold lowerIdentifier
  refine orderly_check (text_ne_cyclic n) fun name hname => ?_
  have := hn.text (text?_of_text hname)
  cases hcode : macros.code? (Text.asciiLower name) with
  | some code => exact h name (text?_of_text hname) code hcode
  | none =>
      refine orderly_then fun revision => ?_
      split <;> infer_instance

theorem namedObject?_ne_cyclic (revision : Revision) (n : Node) (isRef : Bool) :
    namedObject? revision n isRef ≠ .error cyclicError := by
  unfold namedObject?
  split
  · exact bind_ne_cyclic (text_ne_cyclic n) fun _ => nofun
  · exact nofun

/-- A builtin object is named by the text of its node. -/
theorem text_of_namedObject? {revision : Revision} {n : Node} {isRef : Bool} {name : String}
    {object : Code.BuiltinObject}
    (h : namedObject? revision n isRef = .ok (some (name, object))) : n.text = .ok name := by
  unfold namedObject? at h
  split at h
  · obtain ⟨text, htext, hfound⟩ := Control.except_bind_eq_ok.mp h
    obtain ⟨_, _, hname⟩ := Option.map_eq_some_iff.mp (Except.ok.inj hfound)
    cases hname
    exact htext
  · cases h

instance (f : Fragment) [hf : f.Orderly v] (context : Context) :
    Orderly given v (lowerObject f context) := by
  unfold lowerObject
  refine orderly_then fun revision => ?_
  refine orderly_check (namedObject?_ne_cyclic _ _ _) fun found hfound => ?_
  split
  case h_1 name _ =>
      have : Known given v name :=
        Known.text inferInstance (text?_of_text (text_of_namedObject? hfound))
      infer_instance
  case h_2 => infer_instance

instance (n : Node) [Known given v n] : Orderly given v (namedLocal n) := by
  unfold namedLocal
  infer_instance

instance : Known given v definedTemp :=
  inferInstanceAs (Known given v ("$" ++ "defined"))

instance : Known given v coalesceTemp :=
  inferInstanceAs (Known given v ("$" ++ "coalesce"))

section Rules

variable {c : Construct} [hc : c.Orderly v]

/-- A part that must be there decides how to go on. -/
theorem orderly_part [Wording β] {position : Nat} {f : Fragment → Lower β}
    (hf : ∀ p : Fragment, p.Orderly v → Orderly given v (f p)) :
    Orderly given v (liftM (c.part position) >>= f) :=
  orderly_check (part_ne_cyclic c position) fun p hp => hf p (hc.parts p (mem_parts_of_part hp))

theorem orderly_lowerField (context : Context) : Orderly given v (lowerField c context) := by
  refine orderly_part fun object _ => orderly_then fun name => orderly_then fun field => ?_
  exact orderly_getTarget (fun _ => rfl)

theorem orderly_lowerDefinedField (context : Context) :
    Orderly given v (lowerDefinedField c context) :=
  orderly_part fun _ _ => inferInstance

theorem orderly_lowerElement (context : Context) : Orderly given v (lowerElement c context) :=
  orderly_part fun _ _ => orderly_part fun _ _ => inferInstance

theorem orderly_lowerUnary (code : Opcode) : Orderly given v (lowerUnary code c) :=
  orderly_part fun _ _ => inferInstance

theorem orderly_lowerBinary (lookup : String → Option Opcode) :
    Orderly given v (lowerBinary lookup c) := by
  refine orderly_then fun token => ?_
  cases lookup token with
  | none => infer_instance
  | some code => exact orderly_part fun _ _ => orderly_part fun _ _ => inferInstance

omit hc in
theorem shape_of_connective? {token : String} {tested : Bool} {code : Opcode}
    (h : connective? token = some (tested, code)) : code.shape .legacy = .jump := by
  unfold connective? at h
  dsimp only at h
  split at h <;> cases h <;> rfl

theorem orderly_lowerBoolean (context : Context) : Orderly given v (lowerBoolean c context) := by
  unfold lowerBoolean
  split
  case h_1 => infer_instance
  case h_2 only hparts =>
      have := hc.parts only (by simp [hparts])
      infer_instance
  case h_3 left right others hparts =>
      have := hc.parts left (by simp [hparts])
      have := hc.parts right (by simp [hparts])
      refine orderly_then fun token => ?_
      split
      case h_1 => infer_instance
      case h_2 tested code hcode => exact orderly_shortCircuit (shape_of_connective? hcode)

theorem orderly_lowerCoalesce : Orderly given v (lowerCoalesce c) := by
  unfold lowerCoalesce
  refine orderly_then fun temp => ?_
  exact orderly_part fun _ _ => orderly_part fun _ _ => inferInstance

theorem orderly_lowerTypeTest (inverted : Bool) : Orderly given v (lowerTypeTest c inverted) := by
  refine orderly_part fun operand _ => orderly_then fun name => ?_
  dsimp only
  split <;> infer_instance

theorem orderly_lowerCast : Orderly given v (lowerCast c) := by
  refine orderly_then fun name => ?_
  dsimp only
  split
  case h_4 => infer_instance
  all_goals exact orderly_then fun key => orderly_part fun _ _ => inferInstance

theorem orderly_lowerVector : Orderly given v (lowerVector c) :=
  orderly_part fun _ _ => orderly_part fun _ _ => orderly_part fun _ _ => inferInstance

theorem orderly_lowerFunctionPointer : Orderly given v (lowerFunctionPointer c) := by
  unfold lowerFunctionPointer
  cases hpart : c.findPart? "namespace" with
  | none => infer_instance
  | some part =>
      have := hc.parts part (List.mem_of_find?_eq_some hpart)
      infer_instance

/-! ## Statements -/

theorem orderly_lowerIf (needsElse : Bool) : Orderly given v (lowerIf c needsElse) := by
  unfold lowerIf
  split
  case h_1 =>
      have : Orderly given v (throw (c.node.malformed "missing else branch") : Lower Unit) :=
        orderly_malformed _ (by decide)
      have : Orderly given v (do
          let condition ← c.part 0
          let body ← c.part 1
          ifThen condition.lowerValue body.lowerValue) :=
        orderly_part fun _ _ => orderly_part fun _ _ => inferInstance
      infer_instance
  case h_2 otherwise hparts =>
      have := hc.parts otherwise (List.mem_of_getElem? hparts)
      exact orderly_part fun _ _ => orderly_part fun _ _ => inferInstance

theorem orderly_lowerWhile : Orderly given v (lowerWhile c) :=
  orderly_part fun _ _ => orderly_part fun _ _ => inferInstance

theorem orderly_lowerFor : Orderly given v (lowerFor c) := by
  refine orderly_part fun start _ => orderly_part fun condition _ => ?_
  refine orderly_part fun step _ => orderly_part fun body _ => orderly_forLoop ?_
  intro test htest
  split at htest
  · cases htest
  · cases htest
    infer_instance

theorem orderly_lowerForeach (withKey : Bool) : Orderly given v (lowerForeach c withKey) := by
  have hloop (locals : ForeachLocals) (offset : Nat) (key : UInt32) : Orderly given v (do
      let value ← namedLocal (← c.part offset).node
      let collection ← c.part (offset + 1)
      let body ← c.part (offset + 2)
      foreachLoop locals key value collection.lowerValue body.lowerValue) := by
    refine orderly_part fun named _ => orderly_then fun value => ?_
    exact orderly_part fun _ _ => orderly_part fun _ _ => inferInstance
  unfold lowerForeach
  refine orderly_then fun locals => ?_
  have hloop := hloop locals
  cases withKey with
  | false => exact ⟨(hloop 0 locals.key).composed.weaken And.left⟩
  | true => exact orderly_part fun named _ => inferInstance

omit hc in
theorem mem_of_mem_defaultLast {branches : List Fragment} {b : Fragment}
    (h : b ∈ defaultLast branches) : b ∈ branches := by
  unfold defaultLast at h
  split at h
  · exact h
  · rcases List.mem_append.mp h with h | h
    · exact List.mem_of_mem_eraseIdx h
    · exact List.mem_of_getElem? (Option.mem_toList.mp h)

omit hc in
/-- The code of a branch is that of its fragment's parts, unless it has no value. -/
theorem orderly_pieces_switchBranch {f : Fragment} (hf : f.Orderly v) :
    ∀ x ∈ (switchBranch f).pieces, Orderly given v x := by
  have hparts := hf.parts
  unfold switchBranch
  split
  · simp only [SwitchBranch.pieces, List.mem_map, forall_exists_index, and_imp,
      forall_apply_eq_imp_iff₂]
    intro p hp
    have := hparts p hp
    infer_instance
  · split
    · simp only [SwitchBranch.pieces, List.mem_singleton, forall_eq]
      exact orderly_malformed _ (by decide)
    · rename_i value body hnodes
      simp only [SwitchBranch.pieces, List.mem_cons, List.mem_map, forall_eq_or_imp,
        forall_exists_index, and_imp, forall_apply_eq_imp_iff₂]
      have := hparts value (by simp [hnodes])
      refine ⟨inferInstance, fun p hp => ?_⟩
      have := hparts p (by simp [hnodes, hp])
      infer_instance

theorem orderly_lowerSwitch : Orderly given v (lowerSwitch c) := by
  unfold lowerSwitch
  refine orderly_popSwitchKey fun key => orderly_part fun value _ => ?_
  dsimp only
  split
  · infer_instance
  · refine orderly_switchOn ?_
    simp only [List.mem_map, forall_exists_index, and_imp, forall_apply_eq_imp_iff₂]
    intro b hb
    have hmem : b ∈ c.parts := List.mem_of_mem_drop (mem_of_mem_defaultLast hb)
    exact orderly_pieces_switchBranch (hc.parts b hmem)

theorem orderly_lowerReturn : Orderly given v (lowerReturn c) := by
  unfold lowerReturn
  split
  case h_1 => infer_instance
  case h_2 value others hparts =>
      have := hc.parts value (by simp [hparts])
      infer_instance

omit hc in
theorem orderly_assignElements {target : Fragment} [target.Orderly v] {elements : List Fragment}
    (h : ∀ e ∈ elements, e.Orderly v) (position : Nat) :
    Orderly given v (assignElements target position elements) := by
  induction elements generalizing position with
  | nil => exact inferInstanceAs (Orderly given v (pure ()))
  | cons element rest ih =>
      have := h element List.mem_cons_self
      have := ih fun e he => h e (List.mem_cons_of_mem _ he)
      unfold assignElements
      infer_instance

theorem orderly_lowerAssignment : Orderly given v (lowerAssignment c) := by
  refine orderly_then fun token => orderly_part fun target _ => ?_
  have : Orderly given v (assignTo target) := by
    unfold assignTo
    infer_instance
  split
  · infer_instance
  · infer_instance
  · refine orderly_part fun value hvalue => ?_
    have helements : Orderly given v (assignElements target 0 value.parts) :=
      orderly_assignElements hvalue.parts 0
    infer_instance
  · exact orderly_then fun temp => orderly_part fun _ _ => inferInstance
  · split
    · infer_instance
    · exact orderly_part fun _ _ => inferInstance

/-! ## Calls -/

theorem orderly_of_findPart? {kind : String} {p : Fragment} (h : c.findPart? kind = some p) :
    p.Orderly v :=
  hc.parts p (List.mem_of_find?_eq_some h)

theorem orderly_of_innerPart? {kind : String} {p : Fragment}
    (h : innerPart? c kind = .ok (some p)) : p.Orderly v := by
  unfold innerPart? at h
  split at h
  case h_1 outer houter =>
      obtain ⟨q, hq, hresult⟩ := Control.except_bind_eq_ok.mp h
      cases hresult
      exact (orderly_of_findPart? houter).parts p (mem_parts_of_part hq)
  case h_2 => cases h

end Rules

/-- A call whose parts are orderly. -/
class CallParts.Orderly (v : Vocabulary) (p : CallParts) : Prop where
  /-- The arguments are. -/
  arguments : ∀ f ∈ p.arguments, f.Orderly v
  /-- The object is. -/
  caller : ∀ f ∈ p.caller, f.Orderly v
  /-- The function pointer is. -/
  pointer : ∀ f ∈ p.pointer, f.Orderly v
  /-- The vocabulary has the name of the namespace. -/
  namespaceName : ∀ name ∈ p.namespaceName, Known True v name

theorem innerPart?_ne_cyclic (c : Construct) (kind : String) :
    innerPart? c kind ≠ .error cyclicError := by
  unfold innerPart?
  split
  · exact bind_ne_cyclic (part_ne_cyclic _ 0) fun _ => nofun
  · exact nofun

theorem callParts_ne_cyclic (c : Construct) : callParts c ≠ .error cyclicError := by
  have hrest (rest : Option String → CallParts) (name : Option String) (count : Nat) : (do
      requireAtMost "call parameters" count maxParameters
      return rest name) ≠ .error cyclicError := by
    unfold requireAtMost
    split <;> exact nofun
  refine bind_ne_cyclic (innerPart?_ne_cyclic c _) fun caller => ?_
  refine bind_ne_cyclic (innerPart?_ne_cyclic c _) fun pointer => ?_
  dsimp only
  split
  · exact bind_ne_cyclic (text_ne_cyclic _) fun name => hrest (fun name => ⟨_, _, _, name, _⟩) _ _
  · exact hrest (fun name => ⟨_, _, _, name, _⟩) _ _

theorem orderly_callParts {c : Construct} [hc : c.Orderly v] {p : CallParts}
    (h : callParts c = .ok p) : p.Orderly v := by
  obtain ⟨caller, hcaller, h⟩ := Control.except_bind_eq_ok.mp h
  obtain ⟨pointer, hpointer, h⟩ := Control.except_bind_eq_ok.mp h
  have hresult : p.arguments = ((c.findPart? "arguments").map Fragment.parts).getD [] ∧
      p.caller = caller ∧ p.pointer = pointer ∧
      ∀ name ∈ p.namespaceName, ∃ part, c.findPart? "namespace" = some part ∧
        part.node.text = .ok name := by
    unfold requireAtMost at h
    dsimp only at h
    split at h
    case h_1 part hpart =>
        obtain ⟨name, htext, h⟩ := Control.except_bind_eq_ok.mp h
        split at h <;> cases h
        refine ⟨rfl, rfl, rfl, ?_⟩
        rintro _ ⟨⟩
        exact ⟨part, hpart, htext⟩
    case h_2 =>
        split at h <;> cases h
        exact ⟨rfl, rfl, rfl, nofun⟩
  obtain ⟨harguments, rfl, rfl, hnames⟩ := hresult
  refine ⟨fun f hf => ?_, fun f hf => ?_, fun f hf => ?_, fun name hname => ?_⟩
  · rw [harguments] at hf
    cases hfound : c.findPart? "arguments" with
    | none => simp [hfound] at hf
    | some part =>
        rw [hfound] at hf
        exact (orderly_of_findPart? hfound).parts f hf
  · rw [hf] at hcaller
    exact orderly_of_innerPart? hcaller
  · rw [hf] at hpointer
    exact orderly_of_innerPart? hpointer
  · obtain ⟨part, hpart, htext⟩ := hnames name hname
    have : part.Orderly v := orderly_of_findPart? hpart
    exact Known.text inferInstance (text?_of_text htext)

section Calls

variable {p : CallParts} [hp : p.Orderly v]

instance : Orderly given v p.lowerArguments :=
  orderly_lowerValues fun f hf => hp.arguments f (List.mem_reverse.mp hf)

theorem orderly_lowerNotifier (code : Opcode) (caller : Fragment) [caller.Orderly v]
    (context : Context) : Orderly given v (lowerNotifier code p caller context) := by
  unfold lowerNotifier
  refine orderly_then fun revision => ?_
  split
  · split
    · exact orderly_throw (by decide)
    · rename_i event bound hargs
      have := hp.arguments event (by simp [hargs])
      have : Orderly given v (bound.forM fun f => f.lower .waittill) := by
        refine orderly_forM fun f hf => ?_
        have := hp.arguments f (by simp [hargs, hf])
        infer_instance
      infer_instance
  all_goals infer_instance

theorem orderly_lowerBuiltinCall (name : String) (context : Context) :
    Orderly given v (lowerBuiltinCall name p context) := by
  unfold lowerBuiltinCall
  refine orderly_then fun revision => ?_
  cases hcaller : p.caller with
  | none =>
      dsimp only
      split <;> infer_instance
  | some caller =>
      have := hp.caller caller hcaller
      dsimp only
      split
      · infer_instance
      · exact orderly_lowerNotifier _ caller context

instance : Orderly given v p.lowerOperands := by
  have : Orderly given v (p.caller.forM Fragment.lowerValue) := by
    cases hcaller : p.caller with
    | none => exact inferInstanceAs (Orderly given v (pure ()))
    | some caller =>
        have := hp.caller caller hcaller
        exact inferInstanceAs (Orderly given v caller.lowerValue)
  unfold CallParts.lowerOperands
  infer_instance

theorem orderly_lowerPointerCall (pointer : Fragment) [pointer.Orderly v] (context : Context) :
    Orderly given v (lowerPointerCall p pointer context) := by
  unfold lowerPointerCall
  infer_instance

theorem orderly_lowerNamedCall (name : String) [Known given v name] (context : Context) :
    Orderly given v (lowerNamedCall name p context) := by
  unfold lowerNamedCall
  cases hname : p.namespaceName with
  | none => infer_instance
  | some namespaceName =>
      have : Known given v namespaceName :=
        ⟨fun _ => (hp.namespaceName namespaceName hname).known trivial⟩
      infer_instance

end Calls

theorem orderly_lowerCall {c : Construct} [c.Orderly v] (context : Context) :
    Orderly given v (lowerCall c context) := by
  refine orderly_check (callParts_ne_cyclic c) fun p hp => ?_
  have hparts : p.Orderly v := orderly_callParts hp
  dsimp only
  split
  case h_1 pointer hpointer =>
      have := hparts.pointer pointer hpointer
      have := @orderly_lowerPointerCall given v p _ pointer _ (p.context context)
      infer_instance
  case h_2 =>
      refine orderly_then fun name => ?_
      have hbuiltin := @orderly_lowerBuiltinCall (given ∧ Wording.known v name) v p _
        (Text.asciiLower name) (p.context context)
      have hnamed := @orderly_lowerNamedCall (given ∧ Wording.known v name) v p _
        (Text.asciiLower name) _ (p.context context)
      infer_instance

/-! ## Leaves -/

theorem orderly_lowerLoopJump (n : Node) : Orderly given v (lowerLoopJump n) := by
  have hkind : Orderly given v (liftM (loopJump n) : Lower LoopJump) := by
    refine orderly_liftM (bind_ne_cyclic (text_ne_cyclic n) fun text => ?_) fun _ _ => inferInstance
    split
    · exact nofun
    · exact nofun
    · exact fun h => malformed_ne_cyclic n (by decide) (Except.error.inj h)
  have hlevels : Orderly given v (liftM (loopLevels n) : Lower Nat) := by
    refine orderly_liftM ?_ fun _ _ => inferInstance
    unfold loopLevels
    split
    · exact nofun
    · split
      · exact nofun
      · exact fun h => malformed_ne_cyclic n (by decide) (Except.error.inj h)
    · exact fun h => malformed_ne_cyclic n (by decide) (Except.error.inj h)
  unfold lowerLoopJump
  infer_instance

section Leaves

variable (n : Node) [hn : Known given v n]

theorem orderly_lowerDebugString : Orderly given v (lowerDebugString n) := by
  unfold lowerDebugString
  refine orderly_then fun revision => ?_
  cases revision <;> infer_instance

theorem orderly_lowerHashed : Orderly given v (lowerHashed n) := by
  unfold lowerHashed
  refine orderly_check (text_ne_cyclic n) fun token htoken => orderly_then fun revision => ?_
  split
  case h_1 value hvalue =>
      have : Orderly given v (emit (.hash value)) := orderly_emit fun hgiven =>
        v.written (hn.known hgiven token (.here (text?_of_text htoken))) hvalue
      infer_instance
  case h_2 => infer_instance

theorem orderly_lowerCanonicalHash : Orderly given v (lowerCanonicalHash n) := by
  unfold lowerCanonicalHash
  infer_instance

omit hn in
theorem orderly_lowerNumber : Orderly given v (lowerNumber n) := by
  have : Orderly given v (liftM (numberConstant n) : Lower Constant) := by
    refine orderly_liftM ?_ fun _ _ => inferInstance
    unfold numberConstant
    split
    · exact nofun
    · split <;> exact nofun
    · split <;> exact nofun
    · exact fun h => malformed_ne_cyclic n (by decide) (Except.error.inj h)
  unfold lowerNumber
  infer_instance

end Leaves

end GscAssembler.Lowering
