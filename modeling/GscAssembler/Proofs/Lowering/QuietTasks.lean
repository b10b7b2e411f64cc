import GscAssembler.Proofs.Lowering.Assertions

/-!
# Tasks that touch no variables

Most tasks neither open nor close a scope, land no jump and use no local.  They keep whatever is known to
have been stored (`Quiet`), and so do the steps they are made of (`Mild`).
-/

namespace GscAssembler.Lowering

open Code (BuiltinObject Context Opcode)
open Number (Constant)
open Reference (ImportKey Tables)
open SyntaxTree (Node)
open Text (asciiLower)

variable {α β ε : Type}

/-! ## Steps -/

/-- A piece of lowering that keeps what is known to have been stored. -/
class Mild (x : StateT State (Except ε) α) : Prop where
  /-- It does. -/
  keeps {c : Setting} {s s' : State} {scopes : List (List UInt32)} {needs : List UInt32}
    {marks : List Mark} {a : α} : Holds c s scopes (needs.map .stored) marks →
      x s = .ok (a, s') → Holds c s' scopes (needs.map .stored) marks

theorem exists_of_attempt_bind {x : StateT State (Except ε) α} {f : α → StateT State (Except ε) β}
    {s s' : State} {b : β} (h : (x >>= f) s = .ok (b, s')) :
    ∃ a t, x s = .ok (a, t) ∧ f a t = .ok (b, s') := by
  change (x s).bind _ = _ at h
  obtain ⟨r, hx, hf⟩ := Control.except_bind_eq_ok.mp h
  exact ⟨r.1, r.2, hx, hf⟩

theorem perform_eq_ok {x : Lower α} {s : State} {r : α × State} :
    perform x s = .ok r ↔ x s = .ok r := by
  unfold perform
  cases x s <;> simp [Except.mapError]

/-- A piece that leaves the function alone, but for more locals. -/
theorem mild_of_frame {x : StateT State (Except ε) α}
    (h : ∀ {s s' : State} {a : α}, x s = .ok (a, s') → s'.script.target = s.script.target ∧
      { s'.function with locals := s.function.locals } = s.function ∧
      ∀ x ∈ s.function.locals, x ∈ s'.function.locals) : Mild x where
  keeps hholds hrun := by
    obtain ⟨htarget, hfunction, hlocals⟩ := h hrun
    exact hholds.congr htarget hfunction hlocals

instance (a : α) : Mild (pure a : StateT State (Except ε) α) where
  keeps h hrun := by
    cases hrun
    exact h

instance (e : ε) : Mild (throw e : StateT State (Except ε) α) where
  keeps _ hrun := by cases hrun

instance {x : StateT State (Except ε) α} {f : α → StateT State (Except ε) β} [hx : Mild x]
    [hf : ∀ a, Mild (f a)] : Mild (x >>= f) where
  keeps h hrun := by
    obtain ⟨a, t, hfirst, hrest⟩ := exists_of_attempt_bind hrun
    exact (hf a).keeps (hx.keeps h hfirst) hrest

instance {x : Lower α} [hx : Mild x] : Mild (perform x) where
  keeps h hrun := hx.keeps h (perform_eq_ok.mp hrun)

instance {x : Lower α} [Mild x] : Mild (liftM x : Attempt α) :=
  inferInstanceAs (Mild (perform x))

instance (x : Except CompileError α) : Mild (liftM x : Lower α) := by
  cases x with
  | error e => exact inferInstanceAs (Mild (throw e : Lower α))
  | ok a => exact inferInstanceAs (Mild (pure a : Lower α))

instance (x : Except CompileError α) : Mild (liftM x : Attempt α) :=
  inferInstanceAs (Mild (perform (liftM x : Lower α)))

instance : Mild getTarget := mild_of_frame fun hrun => by
    cases hrun
    exact ⟨rfl, rfl, fun _ hx => hx⟩

instance : Mild getNamespace := mild_of_frame fun hrun => by
    cases hrun
    exact ⟨rfl, rfl, fun _ hx => hx⟩

instance : Mild isLegacy := inferInstanceAs (Mild (getTarget >>= fun target => pure target.isLegacy))

instance : Mild getRevision :=
  inferInstanceAs (Mild (getTarget >>= fun target => pure target.revision))

instance (name : String) (namespaceHash : UInt32) (context : Context) :
    Mild (callFlags name namespaceHash context) :=
  mild_of_frame fun hrun => by
    cases hrun
    exact ⟨rfl, rfl, fun _ hx => hx⟩

instance (name : String) : Mild (hashName name) := mild_of_frame fun hrun => by
  obtain ⟨names, -, rfl⟩ := Control.hashName_eq_ok.mp hrun
  exact ⟨rfl, rfl, fun _ hx => hx⟩

instance (name : String) : Mild (hashName64 name) := mild_of_frame fun hrun => by
  obtain ⟨names, -, rfl⟩ := Control.hashName64_eq_ok.mp hrun
  exact ⟨rfl, rfl, fun _ hx => hx⟩

instance (f : Tables → Nat × Tables) : Mild (modifyTables f) :=
  mild_of_frame fun hrun => by
    cases hrun
    exact ⟨rfl, rfl, fun _ hx => hx⟩

instance (name : String) : Mild (declare name) := mild_of_frame fun hrun => by
  obtain ⟨names, -, rfl⟩ := Control.declare_eq_ok.mp hrun
  obtain ⟨locals, hlocals, -, hold⟩ := Control.exists_addLocal (Control.withNames _ names).function _
  rw [Control.withLocal, hlocals]
  exact ⟨rfl, rfl, hold⟩

instance (name : String) : Mild (engineImport name) := by
  unfold engineImport
  infer_instance

/-! ## Instructions -/

theorem mild_emit {i : Code.Instruction} (hnamed : i.named? = none)
    (hi : Code.Annotates.Untargeted i) : Mild (discard (emit i)) where
  keeps h hrun := h.emitPlain hrun hnamed hi

instance (code : Opcode) : Mild (emitOp code) := mild_emit rfl fun _ _ => nofun

instance (code : Opcode) (hash : UInt32) : Mild (discard (emit (.field code hash))) :=
  mild_emit rfl fun _ _ => nofun

instance (code : Opcode) (params : UInt8) : Mild (discard (emit (.callPointer code params))) :=
  mild_emit rfl fun _ _ => nofun

instance (code : Opcode) (params : UInt8) : Mild (discard (emit (.notification code params))) :=
  mild_emit rfl fun _ _ => nofun

instance (value : UInt64) : Mild (discard (emit (.hash value))) :=
  mild_emit rfl fun _ _ => nofun

instance (code : Opcode) (text : String) : Mild (emitString code text) := by
  have (entry : Nat) : Mild (discard (emit (.string code entry))) := mild_emit rfl fun _ _ => nofun
  exact inferInstanceAs (Mild (modifyTables _ >>= fun entry => discard (emit (.string code entry))))

instance (hash : UInt32) : Mild (emitDebugString hash) := by
  have (entry : Nat) : Mild (discard (emit (.debugString entry))) := mild_emit rfl fun _ _ => nofun
  exact inferInstanceAs (Mild (modifyTables _ >>= fun entry => discard (emit (.debugString entry))))

instance (code : Opcode) (hash : UInt32) : Mild (emitGlobal code hash) := by
  have (entry : Nat) : Mild (discard (emit (.global code entry))) := mild_emit rfl fun _ _ => nofun
  exact inferInstanceAs (Mild (modifyTables _ >>= fun entry => discard (emit (.global code entry))))

instance (code : Opcode) (key : ImportKey) : Mild (emitCall code key) := by
  have (entry : Nat) : Mild (discard (emit (.call code entry))) := mild_emit rfl fun _ _ => nofun
  exact inferInstanceAs (Mild (modifyTables _ >>= fun entry => discard (emit (.call code entry))))

instance (code : Opcode) (key : ImportKey) : Mild (emitFunctionPointer code key) := by
  have (entry : Nat) : Mild (discard (emit (.functionPointer code entry))) :=
    mild_emit rfl fun _ _ => nofun
  exact inferInstanceAs
    (Mild (modifyTables _ >>= fun entry => discard (emit (.functionPointer code entry))))

instance (value : Constant) : Mild (emitNumber value) := by
  have (value : Constant) : Mild (discard (emit (.number value))) := mild_emit rfl fun _ _ => nofun
  have hemit : emitNumber value = (do
      let value ← (value.checked : Except CompileError Constant)
      discard (emit (.number value))) := by
    funext s
    simp only [emitNumber, Code.ScriptFunction.addNumber]
    cases value.checked <;> rfl
  rw [hemit]
  infer_instance

instance (name : String) (object : BuiltinObject) (isRef : Bool) :
    Mild (emitBuiltin name object isRef) := by
  cases object with
  | op code => exact inferInstanceAs (Mild (emitOp code))
  | one => exact inferInstanceAs (Mild (emitNumber (.int 1)))
  | «global» =>
      exact inferInstanceAs (Mild (hashName name >>= fun hash =>
        emitGlobal (if isRef then .getGlobalObjectRef else .getGlobalObject) hash))

instance (n : Node) : Mild (lowerDebugString n) := by
  have (revision : Revision) : Mild (match revision with
      | .legacy => do
          let hash ← hashName (← n.text)
          emitDebugString hash
      | .rev36 => do emitString .getString (← n.text) : Lower Unit) := by
    cases revision <;> infer_instance
  exact inferInstanceAs (Mild (getRevision >>= _))

instance (n : Node) : Mild (lowerHashed n) := by
  have (token : String) (value : Option UInt64) : Mild (match value with
      | some value => discard (emit (.hash value))
      | none => throw (.badHash token) : Lower Unit) := by
    cases value <;> infer_instance
  exact inferInstanceAs (Mild (liftM n.text >>= fun token => getRevision >>= _))

instance (n : Node) : Mild (lowerCanonicalHash n) := by
  unfold lowerCanonicalHash
  infer_instance

instance (n : Node) : Mild (lowerNumber n) := by
  unfold lowerNumber
  infer_instance

/-! ## Tasks -/

/-- Whether a continuation needs nothing to have been stored, is no part of a loop or switch, and has no
jump to land.  The temporary variables are the right ones. -/
@[simp] def Continuation.Light (revision : Revision) : Continuation → Prop
  | .op _ | .number _ | .field .. | .object .. | .call .. | .callPointer .. | .notification ..
  | .branch .. | .shortCircuit .. => True
  | .coalesce temp _ => Name.hash? revision coalesceTemp = some temp
  | .definedAccess temp .. => Name.hash? revision definedTemp = some temp
  | _ => False

/-- Whether a task is that of a node, or of such a continuation. -/
@[simp] def Task.Light (revision : Revision) : Task → Prop
  | .resume k => k.Light revision
  | _ => True

/-- Whether beginning with a task keeps what is known to have been stored, and plans only light ones. -/
structure Quiet (revision : Revision) (x : Attempt (List Task)) : Prop where
  /-- What is known is kept. -/
  keeps {c : Setting} {s s' : State} {scopes : List (List UInt32)} {needs : List UInt32}
    {marks : List Mark} {next : List Task} : c.target.revision = revision →
      Holds c s scopes (needs.map .stored) marks → x s = .ok (next, s') →
      Holds c s' scopes (needs.map .stored) marks ∧ ∀ t ∈ next, t.Light revision

section Plans

variable {revision : Revision} {n : Node} {context : Context}

theorem quiet_return {tasks : List Task} (h : ∀ t ∈ tasks, t.Light revision) :
    Quiet revision (pure tasks) where
  keeps _ hholds hrun := by
    cases hrun
    exact ⟨hholds, h⟩

theorem quiet_throw (fault : Fault) : Quiet revision (throw fault) where
  keeps _ _ hrun := by cases hrun

theorem quiet_step {x : Attempt α} [hx : Mild x] {f : α → Attempt (List Task)}
    (hf : ∀ a, Quiet revision (f a)) : Quiet revision (x >>= f) where
  keeps hrevision hholds hrun := by
    obtain ⟨a, t, hfirst, hrest⟩ := exists_of_attempt_bind hrun
    exact (hf a).keeps hrevision (hx.keeps hholds hfirst) hrest

/-- A variable is declared under the hash of its name. -/
theorem quiet_declare {name : String} {f : UInt32 → Attempt (List Task)}
    (hf : ∀ hash, Name.hash? revision name = some hash → Quiet revision (f hash)) :
    Quiet revision (liftM (declare name) >>= f) where
  keeps hrevision hholds hrun := by
    obtain ⟨hash, t, hfirst, hrest⟩ := exists_of_attempt_bind hrun
    have hfirst : declare name _ = .ok (hash, t) := perform_eq_ok.mp hfirst
    refine (hf hash ?_).keeps hrevision (Mild.keeps hholds hfirst) hrest
    obtain ⟨names, hnames, -⟩ := Control.declare_eq_ok.mp hfirst
    obtain ⟨_, _, hannotated, -⟩ := hholds
    rw [hannotated.scriptTarget, hrevision] at hnames
    exact Name.hash?_of_hash hnames

theorem quiet_leaf {x : Lower Unit} [Mild x] : Quiet revision (do x; return []) :=
  quiet_step fun _ => quiet_return (by simp)

theorem light_values {nodes : List Node} {t : Task} (h : t ∈ Task.values nodes) :
    t.Light revision := by
  obtain ⟨n, -, rfl⟩ := List.mem_map.mp h
  trivial

theorem quiet_children : Quiet revision (pure (n.children.map (.node · context))) := by
  refine quiet_return fun t ht => ?_
  obtain ⟨child, -, rfl⟩ := List.mem_map.mp ht
  trivial

theorem quiet_if (needsElse : Bool) : Quiet revision (planIf n needsElse) := by
  have htasks : Quiet revision (do
      let condition ← n.child 0
      let body ← n.child 1
      return [.node condition .plain, .resume (.branch body n.children[2]?)]) :=
    quiet_step fun condition => quiet_step fun body =>
      quiet_return (by simp)
  unfold planIf
  dsimp only
  split
  · exact quiet_throw _
  · exact htasks

theorem quiet_field : Quiet revision (planField n context) := by
  refine quiet_step fun object => quiet_step fun name => quiet_step fun field => ?_
  exact quiet_step fun target => quiet_return (by simp)

theorem quiet_definedField : Quiet revision (planDefinedField n context) := by
  refine quiet_step fun object => quiet_step fun name => quiet_step fun field => ?_
  refine quiet_declare fun temp htemp => quiet_return ?_
  simp [htemp]

theorem quiet_element : Quiet revision (planElement n context) :=
  quiet_step fun index => quiet_step fun array => quiet_return (by simp)

theorem quiet_unary (code : Opcode) : Quiet revision (planUnary code n) :=
  quiet_step fun operand => quiet_return (by simp)

theorem quiet_binary (lookup : String → Option Opcode) : Quiet revision (planBinary lookup n) := by
  refine quiet_step fun token => ?_
  cases lookup token with
  | none => exact quiet_throw _
  | some code =>
      exact quiet_step fun left => quiet_step fun right => quiet_return (by simp)

theorem quiet_boolean : Quiet revision (planBoolean n context) := by
  unfold planBoolean
  match n.children with
  | [] => exact quiet_return (by simp)
  | [only] => exact quiet_return (by simp)
  | left :: right :: others =>
      refine quiet_step fun token => ?_
      cases connective? token with
      | none => exact quiet_throw _
      | some found =>
          obtain ⟨tested, code⟩ := found
          cases tested <;> exact quiet_return (by simp)

theorem quiet_coalesce : Quiet revision (planCoalesce n) := by
  refine quiet_declare fun temp htemp => quiet_step fun left => quiet_step fun right => ?_
  exact quiet_return (by simp [htemp])

theorem light_engineTasks {key : ImportKey} {argument : Node} {t : Task}
    (h : t ∈ engineTasks key argument) : t.Light revision := by
  simp only [engineTasks, List.mem_cons, List.not_mem_nil, or_false] at h
  rcases h with rfl | rfl | rfl <;> trivial

theorem quiet_typeTest (inverted : Bool) : Quiet revision (planTypeTest n inverted) := by
  refine quiet_step fun operand => quiet_step fun name => ?_
  dsimp only
  generalize asciiLower name = type
  have hnegation : ∀ t ∈ (if inverted then [Task.resume (.op .boolNot)] else []),
      t.Light revision := by
    cases inverted <;> simp
  generalize (if inverted then [Task.resume (.op .boolNot)] else []) = negation at hnegation
  have hengine : Quiet revision (do
      let key ← engineImport ("is" ++ type)
      return engineTasks key operand ++ negation) :=
    quiet_step fun key => quiet_return fun t ht =>
      (List.mem_append.mp ht).elim light_engineTasks (hnegation t)
  split
  case h_11 => exact quiet_throw _
  case h_1 | h_2 | h_3 | h_4 =>
    exact quiet_return (by simpa using hnegation)
  all_goals exact hengine

theorem quiet_cast : Quiet revision (planCast n) := by
  refine quiet_step fun name => ?_
  dsimp only
  generalize asciiLower name = type
  have hengine : Quiet revision (do
      let key ← engineImport type
      let operand ← n.child 0
      return engineTasks key operand) :=
    quiet_step fun key => quiet_step fun operand => quiet_return fun t => light_engineTasks
  split
  case h_4 => exact quiet_throw _
  all_goals exact hengine

theorem quiet_vector : Quiet revision (planVector n) := by
  refine quiet_step fun x => quiet_step fun y => quiet_step fun z => ?_
  exact quiet_return (by simp)

theorem quiet_functionPointer : Quiet revision (planFunctionPointer n) := by
  refine quiet_step fun name => quiet_step fun function => quiet_step fun own => ?_
  cases n.findChild? "namespace" with
  | none => exact quiet_step fun namespaceHash => quiet_step fun legacy => quiet_leaf
  | some child =>
      exact quiet_step fun text => quiet_step fun namespaceHash => quiet_step fun legacy => quiet_leaf

theorem quiet_returnStatement : Quiet revision (planReturn n) := by
  unfold planReturn
  cases n.children with
  | nil => exact quiet_leaf
  | cons value others => exact quiet_return (by simp)

/-! ## Assignments -/

theorem light_assignTasks {target : Node} {t : Task} (h : t ∈ assignTasks target) :
    t.Light revision := by
  simp only [assignTasks, List.mem_cons, List.not_mem_nil, or_false] at h
  rcases h with rfl | rfl <;> trivial

theorem light_elementTasks {target : Node} {elements : List Node} :
    ∀ {position : Nat}, ∀ t ∈ elementTasks target position elements, t.Light revision := by
  induction elements with
  | nil => exact fun t ht => absurd ht List.not_mem_nil
  | cons element rest ih =>
      intro position t ht
      simp only [elementTasks, List.cons_append, List.nil_append, List.mem_cons] at ht
      rcases ht with rfl | rfl | rfl | rfl | rfl | ht
      all_goals first
        | trivial
        | exact ih t ht

theorem quiet_assignment : Quiet revision (planAssignment n) := by
  refine quiet_step fun token => quiet_step fun target => ?_
  have hassign : ∀ t ∈ assignTasks target, t.Light revision := fun _ => light_assignTasks
  split
  · exact quiet_return (by simp)
  · exact quiet_return (by simp)
  · refine quiet_step fun value => ?_
    split
    · refine quiet_return ?_
      simp only [List.cons_append, List.mem_cons, List.mem_append]
      rintro t (rfl | ht | ht)
      · trivial
      · exact hassign t ht
      · exact light_elementTasks t ht
    · exact quiet_return (by simpa using hassign)
  · refine quiet_declare fun temp htemp => quiet_step fun value => quiet_return ?_
    simpa [htemp] using hassign
  · cases compoundOp? token with
    | none => exact quiet_throw _
    | some code =>
        refine quiet_step fun value => quiet_return ?_
        simpa using hassign

/-! ## Calls -/

theorem light_dropTasks {t : Task} (h : t ∈ dropTasks context) : t.Light revision := by
  unfold dropTasks at h
  split at h
  · obtain rfl := List.mem_singleton.mp h
    trivial
  · cases h

theorem light_reversed {p : CallNodes} {t : Task} (h : t ∈ p.reversed) : t.Light revision :=
  light_values h

theorem light_operands {p : CallNodes} {t : Task} (h : t ∈ p.operands) : t.Light revision := by
  simp only [CallNodes.operands, List.cons_append, List.mem_cons, List.mem_append] at h
  rcases h with rfl | h | h
  · trivial
  · exact light_reversed h
  · exact light_values h

theorem quiet_notifier (code : Opcode) (p : CallNodes) (caller : Node) :
    Quiet revision (planNotifier code p caller context) := by
  refine quiet_step fun machine => ?_
  have hreversed : ∀ t ∈ p.reversed, t.Light revision := fun _ => light_reversed
  split
  · cases p.arguments with
    | nil => exact quiet_throw _
    | cons event bound =>
        refine quiet_return ?_
        simp only [List.mem_cons, List.mem_append, List.mem_map, List.not_mem_nil, or_false]
        rintro t (rfl | rfl | rfl | ⟨n, -, rfl⟩ | rfl) <;> trivial
  · refine quiet_return ?_
    simp only [List.mem_cons, List.mem_append, List.not_mem_nil, or_false]
    rintro t (rfl | ht | rfl | rfl)
    · trivial
    · exact hreversed t ht
    · trivial
    · trivial
  · refine quiet_return ?_
    simp only [List.mem_cons, List.mem_append, List.not_mem_nil, or_false]
    rintro t (ht | rfl | rfl)
    · exact hreversed t ht
    · trivial
    · trivial
  · refine quiet_return ?_
    simp only [List.mem_cons, List.mem_append]
    rintro t (ht | rfl | rfl | ht)
    · exact hreversed t ht
    · trivial
    · trivial
    · split at ht
      · obtain rfl := List.mem_singleton.mp ht
        trivial
      · cases ht

theorem quiet_builtinCall (name : String) (p : CallNodes) :
    Quiet revision (planBuiltinCall name p context) := by
  refine quiet_step fun machine => ?_
  cases p.caller with
  | none =>
      dsimp only
      cases Code.builtinCall? machine name with
      | none => exact quiet_throw _
      | some code =>
          refine quiet_return fun t ht => ?_
          rcases List.mem_append.mp ht with ht | ht
          · exact light_reversed ht
          · obtain rfl := List.mem_singleton.mp ht
            trivial
  | some caller =>
      dsimp only
      cases Code.notifier? machine name with
      | none => exact quiet_throw _
      | some code => exact quiet_notifier code p caller

theorem quiet_namedCall (name : String) (p : CallNodes) :
    Quiet revision (planNamedCall name p context) := by
  have hrest (namespaceHash : UInt32) : Quiet revision (do
      let function ← hashName name
      let flags ← callFlags name namespaceHash context
      let key := { function, namespaceHash, params := p.params, flags }
      return p.operands ++ [.resume (.call (callOpcode context) key)] ++ dropTasks context) := by
    refine quiet_step fun function => quiet_step fun flags => quiet_return fun t ht => ?_
    rcases List.mem_append.mp ht with ht | ht
    · rcases List.mem_append.mp ht with ht | ht
      · exact light_operands ht
      · obtain rfl := List.mem_singleton.mp ht
        trivial
    · exact light_dropTasks ht
  unfold planNamedCall
  cases p.namespaceName with
  | none => exact quiet_step hrest
  | some namespaceName => exact quiet_step hrest

theorem quiet_call : Quiet revision (planCall n context) := by
  refine quiet_step fun p => ?_
  unfold planCallOf
  cases p.pointer with
  | some pointer =>
      refine quiet_return fun t ht => ?_
      rcases List.mem_append.mp ht with ht | ht
      · rcases List.mem_append.mp ht with ht | ht
        · exact light_operands ht
        · simp only [List.mem_cons, List.not_mem_nil, or_false] at ht
          rcases ht with rfl | rfl <;> trivial
      · exact light_dropTasks ht
  | none =>
      refine quiet_step fun name => quiet_step fun machine => ?_
      split
      · exact quiet_builtinCall _ p
      · exact quiet_namedCall _ p

/-! ## Continuations -/

theorem quiet_object : Quiet revision (planRest (.object n context)) := by
  refine quiet_step fun machine => quiet_step fun found => ?_
  cases found with
  | some found => exact quiet_leaf
  | none =>
      refine quiet_return ?_
      split <;> simp

end Plans

end GscAssembler.Lowering
