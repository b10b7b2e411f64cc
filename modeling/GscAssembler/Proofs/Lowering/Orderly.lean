import GscAssembler.Proofs.Lowering.Step
import GscAssembler.Proofs.Lowering.Vocabulary

/-!
# Lowering is made of steps

Every piece of lowering is a sequence of single steps, of which each may depend on what the ones
before it gave.  `Orderly v` says so of a piece, and also that its steps use no names and hashes but
those of the vocabulary `v`.  The class is closed under everything that rules are made of, so that
the instance of a rule is found from the instances of its steps.

What holds of each step and is kept from step to step then holds of all lowering.  The first two such
facts stand here: no piece changes how the script is compiled, and none makes the error of a macro
that leads back to itself, unless such a macro is expanded.
-/

namespace GscAssembler.Lowering

open Code (Context ForeachLocals Instruction Key LoopJump Opcode ScriptFunction)
open Number (Constant)
open Reference (ImportKey Tables)
open SyntaxTree (Node)

variable {α β : Type} {given : Prop} {v : Vocabulary}

/-! ## Sequences of steps -/

/-- Whether a step uses only names and hashes of a vocabulary.  A jump has an operation that jumps,
and no target at first. -/
def Step.Permitted (v : Vocabulary) : Step β → Prop
  | .hash name => v.texts name
  | .hash64 name => v.texts name
  | .addLocal name => v.hashes name.toUInt64
  | .internDebugString text => v.hashes text.toUInt64
  | .internGlobal object => v.hashes object.toUInt64
  | .internImport key => v.hashes key.function.toUInt64 ∧ v.hashes key.namespaceHash.toUInt64
  | .emit (.jump code target) => code.shape .legacy = .jump ∧ target = none
  | .emit (.field _ name) => v.hashes name.toUInt64
  | .emit (.hash value) => v.values value
  | _ => True

/-- What may be taken for granted of what a step gives: hashes of names are in the vocabulary. -/
def Step.Yields (v : Vocabulary) : Step β → β → Prop
  | .ownNamespace, value => v.hashes value.toUInt64
  | .hash _, value => v.hashes value.toUInt64
  | .hash64 _, value => v.hashes value
  | _, _ => True

/-- A sequence of steps that are permitted if what is given holds, with a result as required.  What a
step yields is given for the steps behind it. -/
inductive Composed (v : Vocabulary) (result : α → Prop) : Prop → Lower α → Prop where
  /-- No more steps. -/
  | pure {given : Prop} {a : α} (ha : given → result a) : Composed v result given (pure a)
  /-- An error, which is about a cyclic macro only if there may be one. -/
  | throw {given : Prop} {e : CompileError} (he : e = cyclicError → v.cycle) :
      Composed v result given (throw e)
  /-- A step, and what follows it. -/
  | step {given : Prop} {β : Type} {first : Step β} {rest : β → Lower α}
      (hfirst : given → first.Permitted v)
      (hrest : ∀ b, Composed v result (given ∧ first.Yields v b) (rest b)) :
      Composed v result given (first.run >>= rest)

theorem Composed.weaken {result : α → Prop} {given given' : Prop} {x : Lower α}
    (hx : Composed v result given x) (h : given' → given) : Composed v result given' x := by
  induction hx generalizing given' with
  | pure ha => exact .pure fun hgiven => ha (h hgiven)
  | throw he => exact .throw he
  | step hfirst _ ih =>
      exact .step (fun hgiven => hfirst (h hgiven)) fun b => ih b (And.imp_left h)

theorem Composed.bind {between : α → Prop} {result : β → Prop} {x : Lower α} {f : α → Lower β}
    (hx : Composed v between given x)
    (hf : ∀ a, Composed v result (given ∧ between a) (f a)) :
    Composed v result given (x >>= f) := by
  induction hx with
  | pure ha =>
      rw [pure_bind]
      exact (hf _).weaken fun hgiven => ⟨hgiven, ha hgiven⟩
  | throw he => exact .throw he
  | step hfirst _ ih =>
      rw [bind_assoc]
      exact .step hfirst fun b => ih b fun a => (hf a).weaken (And.imp_left And.left)

theorem Composed.of_step {result : β → Prop} {step : Step β} (hstep : given → step.Permitted v)
    (hyields : ∀ b, step.Yields v b → result b) : Composed v result given step.run := by
  rw [← bind_pure step.run]
  exact .step hstep fun b => .pure fun hb => hyields b hb.2

/-- A property of the states before and after, which every step has, holds of whole pieces. -/
theorem Composed.relates {result : α → Prop} {x : Lower α} (hx : Composed v result given x)
    (related : State → State → Prop) (hrefl : ∀ s, related s s)
    (htrans : ∀ {s t u}, related s t → related t u → related s u)
    (hstep : ∀ {γ : Type} {step : Step γ} {s s' : State} {c : γ}, step.run s = .ok (c, s') →
      related s s') {s s' : State} {a : α} (h : x s = .ok (a, s')) : related s s' := by
  induction hx generalizing s with
  | pure =>
      cases h
      exact hrefl _
  | throw => cases h
  | step _ _ ih =>
      obtain ⟨b, s₁, hfirst, hrest⟩ := Control.exists_of_bind_eq_ok h
      exact htrans (hstep hfirst) (ih b hrest)

/-- A piece of lowering that is made of steps, and uses the names and hashes of a vocabulary as far
as what is given holds. -/
class Orderly (given : Prop) (v : Vocabulary) [Wording α] (x : Lower α) : Prop where
  /-- It is. -/
  composed : Composed v (Wording.known v) given x

variable [Wording α] [Wording β]

instance (priority := low) {x : Lower α} {more : Prop} [hx : Orderly given v x] :
    Orderly (given ∧ more) v x :=
  ⟨hx.composed.weaken And.left⟩

/-! ## Pieces made of others -/

instance (a : α) [ha : Known given v a] : Orderly given v (pure a) := ⟨.pure ha.known⟩

instance {x : Lower α} {f : α → Lower β} [hx : Orderly given v x]
    [hf : ∀ a, Orderly (given ∧ Wording.known v a) v (f a)] : Orderly given v (x >>= f) :=
  ⟨hx.composed.bind fun a => (hf a).composed⟩

/-- One step of a longer piece. -/
theorem orderly_then {x : Lower α} {f : α → Lower β} [hx : Orderly given v x]
    (hf : ∀ a, Orderly (given ∧ Wording.known v a) v (f a)) : Orderly given v (x >>= f) :=
  ⟨hx.composed.bind fun a => (hf a).composed⟩

instance {x : Lower α} {y : Lower β} [Orderly given v x] [Orderly given v y] :
    Orderly given v (x >>= fun _ => y) :=
  inferInstance

instance {x : Lower α} [Orderly given v x] : Orderly given v (discard x) :=
  inferInstanceAs (Orderly given v (x >>= fun _ => pure ()))

instance {c : Prop} [Decidable c] {x y : Lower α} [hx : Orderly given v x] [hy : Orderly given v y] :
    Orderly given v (if c then x else y) := by
  split
  · exact hx
  · exact hy

theorem orderly_throw {e : CompileError} (h : e ≠ cyclicError) :
    Orderly given v (throw e : Lower α) :=
  ⟨.throw fun heq => absurd heq h⟩

instance (token : String) : Orderly given v (throw (.unknownOperator token) : Lower α) :=
  orderly_throw nofun

instance (name : String) : Orderly given v (throw (.unknownBuiltin name) : Lower α) :=
  orderly_throw nofun

instance (kind : String) : Orderly given v (throw (.unsupportedNode kind) : Lower α) :=
  orderly_throw nofun

instance (text : String) : Orderly given v (throw (.badHash text) : Lower α) :=
  orderly_throw nofun

theorem orderly_malformed (n : Node) {reason : String} (h : reason ≠ "macro expands to itself") :
    Orderly given v (throw (n.malformed reason) : Lower α) :=
  orderly_throw fun heq => h (CompileError.malformedNode.inj heq).2

/-- A check decides how to go on, unless it fails with an error that is not about macros. -/
theorem orderly_check {γ : Type} {x : Except CompileError γ} {f : γ → Lower β}
    (hx : x ≠ .error cyclicError) (hf : ∀ a, x = .ok a → Orderly given v (f a)) :
    Orderly given v (liftM x >>= f) := by
  cases x with
  | error e => exact ⟨.throw fun heq => absurd (congrArg Except.error heq) hx⟩
  | ok a => exact hf a rfl

theorem orderly_forM {γ : Type} {items : List γ} {f : γ → Lower Unit}
    (h : ∀ a ∈ items, Orderly given v (f a)) : Orderly given v (items.forM f) := by
  induction items with
  | nil => exact inferInstanceAs (Orderly given v (pure () : Lower Unit))
  | cons a rest ih =>
      have hfirst := h a List.mem_cons_self
      have hrest := ih fun b hb => h b (List.mem_cons_of_mem _ hb)
      exact inferInstanceAs (Orderly given v (f a >>= fun _ => rest.forM f))

instance {γ : Type} {items : List γ} {f : γ → Lower Unit} [h : ∀ a, Orderly given v (f a)] :
    Orderly given v (items.forM f) :=
  orderly_forM fun a _ => h a

/-! ## Single steps -/

theorem orderly_step {step : Step β} (hstep : given → step.Permitted v)
    (hyields : ∀ b, step.Yields v b → Wording.known v b) : Orderly given v step.run :=
  ⟨.of_step hstep hyields⟩

instance : Orderly given v getRevision :=
  @orderly_step _ given v _ .revision (fun _ => trivial) fun _ _ => trivial

instance : Orderly given v isLegacy :=
  inferInstanceAs
    (Orderly given v (getRevision >>= fun revision => pure (decide (revision = .legacy))))

instance : Orderly given v getNamespace :=
  @orderly_step _ given v _ .ownNamespace (fun _ => trivial) fun _ h => h

instance (name : String) (namespaceHash : UInt32) (context : Context) :
    Orderly given v (callFlags name namespaceHash context) :=
  @orderly_step _ given v _ (.callFlags name namespaceHash context) (fun _ => trivial)
    fun _ _ => trivial

instance (name : String) [h : Known given v name] : Orderly given v (hashName name) :=
  @orderly_step _ given v _ (.hash name) h.known fun _ h => h

instance (name : String) [h : Known given v name] : Orderly given v (hashName64 name) :=
  @orderly_step _ given v _ (.hash64 name) h.known fun _ h => h

/-- Rules look at the target only for its revision. -/
theorem orderly_getTarget {f : Target → Lower β}
    (hf : ∀ target, f target = f ⟨target.revision, .little⟩)
    [∀ revision, Orderly given v (f ⟨revision, .little⟩)] : Orderly given v (getTarget >>= f) := by
  have heq : (getTarget >>= f) = getRevision >>= fun revision => f ⟨revision, .little⟩ := by
    funext s
    exact congrFun (hf s.script.target) s
  rw [heq]
  infer_instance

instance : Orderly given v (updateFunction fun f => f.popForeachLocals) :=
  @orderly_step _ given v _ .foreachLocals (fun _ => trivial) fun _ _ => trivial

instance (text : String) : Orderly given v (internString text) :=
  @orderly_step _ given v _ (.internString text) (fun _ => trivial) fun _ _ => trivial

instance (hash : UInt32) [h : Known given v hash] : Orderly given v (internDebugString hash) :=
  @orderly_step _ given v _ (.internDebugString hash) h.known fun _ _ => trivial

instance (hash : UInt32) [h : Known given v hash] : Orderly given v (internGlobal hash) :=
  @orderly_step _ given v _ (.internGlobal hash) h.known fun _ _ => trivial

instance (key : ImportKey) [h : Known given v key] : Orderly given v (internImport key) :=
  @orderly_step _ given v _ (.internImport key) h.known fun _ _ => trivial

theorem orderly_emit {i : Instruction} (h : given → (Step.emit i).Permitted v) :
    Orderly given v (emit i) :=
  @orderly_step _ given v _ (.emit i) h fun _ _ => trivial

instance (code : Opcode) : Orderly given v (emitOp code) := by
  have : Orderly given v (emit (.op code)) := orderly_emit fun _ => trivial
  exact inferInstanceAs (Orderly given v (discard _))

instance (value : Constant) : Orderly given v (emitNumber value) := by
  have : Orderly given v (updateFunction fun f => f.addNumber value) :=
    @orderly_step _ given v _ (.number value) (fun _ => trivial) fun _ _ => trivial
  exact inferInstanceAs (Orderly given v (discard _))

instance (hash : UInt32) (context : Context) : Orderly given v (emitEval hash context) := by
  have : Orderly given v (updateFunction fun f => .ok (f.addEval hash context)) :=
    @orderly_step _ given v _ (.eval hash context) (fun _ => trivial) fun _ _ => trivial
  exact inferInstanceAs (Orderly given v (discard _))

instance (code : Opcode) (hash : UInt32) : Orderly given v (emit (.localVariable code hash)) :=
  orderly_emit fun _ => trivial

instance (hash : UInt32) : Orderly given v (emitIsDefined hash) := by
  have : Orderly given v (updateFunction fun f => .ok (f.addIsDefined hash)) :=
    inferInstanceAs (Orderly given v (emit _))
  unfold emitIsDefined
  infer_instance

instance (hash : UInt32) : Orderly given v (emitStore hash) := by
  have : Orderly given v (updateFunction fun f => .ok (f.addAssign hash)) :=
    inferInstanceAs (Orderly given v (emit _))
  unfold emitStore
  infer_instance

instance (code : Opcode) (hash : UInt32) [h : Known given v hash] :
    Orderly given v (emit (.field code hash)) :=
  orderly_emit h.known

instance (value : UInt64) [h : Known given v value] : Orderly given v (emit (.hash value)) :=
  orderly_emit fun hgiven => v.pushed (h.known hgiven)

instance (code : Opcode) (count : UInt8) : Orderly given v (emit (.callPointer code count)) :=
  orderly_emit fun _ => trivial

instance (code : Opcode) (count : UInt8) : Orderly given v (emit (.notification code count)) :=
  orderly_emit fun _ => trivial

instance (code : Opcode) (text : String) : Orderly given v (emitString code text) := by
  have (entry : Nat) : Orderly given v (emit (.string code entry)) := orderly_emit fun _ => trivial
  unfold emitString
  infer_instance

instance (hash : UInt32) [Known given v hash] : Orderly given v (emitDebugString hash) := by
  have (entry : Nat) : Orderly given v (emit (.debugString entry)) := orderly_emit fun _ => trivial
  unfold emitDebugString
  infer_instance

instance (code : Opcode) (hash : UInt32) [Known given v hash] :
    Orderly given v (emitGlobal code hash) := by
  have (entry : Nat) : Orderly given v (emit (.global code entry)) := orderly_emit fun _ => trivial
  unfold emitGlobal
  infer_instance

instance (code : Opcode) (key : ImportKey) [Known given v key] :
    Orderly given v (emitCall code key) := by
  have (entry : Nat) : Orderly given v (emit (.call code entry)) := orderly_emit fun _ => trivial
  unfold emitCall
  infer_instance

instance (code : Opcode) (key : ImportKey) [Known given v key] :
    Orderly given v (emitFunctionPointer code key) := by
  have (entry : Nat) : Orderly given v (emit (.functionPointer code entry)) :=
    orderly_emit fun _ => trivial
  unfold emitFunctionPointer
  infer_instance

instance (hash : UInt32) [h : Known given v hash] :
    Orderly given v (modifyFunction fun f => f.addLocal hash) :=
  @orderly_step _ given v _ (.addLocal hash) h.known fun _ _ => trivial

instance (name : String) [Known given v name] : Orderly given v (declare name) := by
  unfold declare
  infer_instance

instance (name : String) [Known given v name] : Orderly given v (declaredLocal name) := by
  refine orderly_then fun hash => ⟨?_⟩
  -- the state is only looked at for the locals, and for the function's name if it has no such local
  have heq : (do
      let f := (← get).function
      if f.hasLocal hash then return hash else throw (.unknownVariable name f.name)) =
      (Step.hasLocal hash).run >>= fun declared => if declared then pure hash else
        Step.functionName.run >>= fun function => throw (.unknownVariable name function) := by
    funext s
    change (if s.function.hasLocal hash then _ else _ : Lower UInt32) s =
      (if s.function.hasLocal hash then _ else _ : Lower UInt32) s
    split <;> rfl
  rw [heq]
  refine .step (fun _ => trivial) fun declared => ?_
  split
  · exact .pure fun hgiven => hgiven.1.2
  · exact .step (fun _ => trivial) fun function => .throw nofun

instance : Orderly given v lastKey :=
  @orderly_step _ given v _ .lastKey (fun _ => trivial) fun _ _ => trivial

theorem orderly_emitJump {code : Opcode} (h : code.shape .legacy = .jump) :
    Orderly given v (emitJump code) :=
  orderly_emit fun _ => ⟨h, rfl⟩

instance : Orderly given v (emitJump .jump) := orderly_emitJump rfl

instance : Orderly given v (emitJump .jumpOnFalse) := orderly_emitJump rfl

instance : Orderly given v (emitJump .jumpOnTrue) := orderly_emitJump rfl

instance (jump after : Key) : Orderly given v (setTarget jump after) :=
  @orderly_step _ given v _ (.setTarget jump after) (fun _ => trivial) fun _ _ => trivial

instance (jump : Key) : Orderly given v (land jump) := by
  unfold land
  infer_instance

instance : Orderly given v enterLoop :=
  @orderly_step _ given v _ .enterLoop (fun _ => trivial) fun _ _ => trivial

instance (kind : LoopJump) (levels : Nat) :
    Orderly given v (updateFunction fun f => f.addLoopJump kind levels) :=
  @orderly_step _ given v _ (.loopJump kind levels) (fun _ => trivial) fun _ _ => trivial

instance (header : Option Key) (footer : Key) : Orderly given v (exitLoop header footer) :=
  @orderly_step _ given v _ (.exitLoop header footer) (fun _ => trivial) fun _ _ => trivial

/-- A switch takes the variable reserved for it, which is one of the function's locals. -/
theorem orderly_popSwitchKey {f : UInt32 → Lower β} (hf : ∀ key, Orderly given v (f key)) :
    Orderly given v ((updateFunction fun f => f.popSwitchKey) >>= f) :=
  ⟨@Composed.step _ v _ given _ .switchKey f (fun _ => trivial) fun key =>
    (hf key).composed.weaken And.left⟩

/-! ## Control flow -/

section Control

variable {condition body otherwise : Lower Unit} [Orderly given v condition] [Orderly given v body]
  [Orderly given v otherwise]

instance : Orderly given v (ifThen condition body) := by
  unfold ifThen
  infer_instance

instance : Orderly given v (ifThenElse condition body otherwise) := by
  unfold ifThenElse
  infer_instance

theorem orderly_shortCircuit {code : Opcode} (h : code.shape .legacy = .jump) :
    Orderly given v (shortCircuit condition code body) := by
  have := @orderly_emitJump given v code h
  unfold shortCircuit
  infer_instance

instance (temp : UInt32) : Orderly given v (coalesce temp body otherwise) := by
  unfold coalesce
  infer_instance

instance (temp : UInt32) (code : Opcode) (field : UInt32) [Known given v field] :
    Orderly given v (definedAccess temp body code field) := by
  unfold definedAccess
  infer_instance

instance (hash : UInt32) : Orderly given v (defaultParameter hash body) := by
  unfold defaultParameter
  infer_instance

instance (header : Key) (exit : Option Key) (continueAt : Key) :
    Orderly given v (closeLoop header exit continueAt) := by
  unfold closeLoop
  cases exit <;> infer_instance

instance : Orderly given v (whileLoop condition body) := by
  unfold whileLoop
  infer_instance

theorem orderly_forLoop {start step : Lower Unit} {test : Option (Lower Unit)}
    [Orderly given v start] [Orderly given v step]
    (htest : ∀ condition ∈ test, Orderly given v condition) :
    Orderly given v (forLoop start test step body) := by
  have : Orderly given v (loopTest test) := by
    cases test with
    | none => exact inferInstanceAs (Orderly given v (pure none))
    | some condition =>
        have := htest condition rfl
        unfold loopTest
        infer_instance
  unfold forLoop
  infer_instance

-- the longest piece of all
set_option synthInstance.maxSize 512 in
instance (locals : ForeachLocals) (key value : UInt32) :
    Orderly given v (foreachLoop locals key value condition body) := by
  unfold foreachLoop
  infer_instance

end Control

/-- The pieces of code of a branch of a switch. -/
def SwitchBranch.pieces : SwitchBranch → List (Lower Unit)
  | .case value body => value :: body
  | .default body => body

theorem orderly_switchBranches {key : UInt32} {branches : List SwitchBranch}
    (h : ∀ b ∈ branches, ∀ x ∈ b.pieces, Orderly given v x) (falling : List Key) :
    Orderly given v (switchBranches key branches falling) := by
  have : Orderly given v closeSwitch := by
    unfold closeSwitch
    infer_instance
  induction branches generalizing falling with
  | nil =>
      unfold switchBranches
      infer_instance
  | cons branch rest ih =>
      have hpieces := h branch List.mem_cons_self
      have hrest := ih fun b hb => h b (List.mem_cons_of_mem _ hb)
      cases branch with
      | default body =>
          have : Orderly given v (body.forM id) := orderly_forM hpieces
          unfold switchBranches
          infer_instance
      | case value body =>
          have hvalue : Orderly given v value := hpieces value List.mem_cons_self
          have hbody : Orderly given v (body.forM id) :=
            orderly_forM fun x hx => hpieces x (List.mem_cons_of_mem _ hx)
          unfold switchBranches
          cases body <;> infer_instance

theorem orderly_switchOn {key : UInt32} {value : Lower Unit} {branches : List SwitchBranch}
    [Orderly given v value] (h : ∀ b ∈ branches, ∀ x ∈ b.pieces, Orderly given v x) :
    Orderly given v (switchOn key value branches) := by
  have hbranches : Orderly given v (switchBranches key branches []) := orderly_switchBranches h []
  unfold switchOn
  infer_instance

/-! ## What whole pieces do -/

/-- Only the tables and the remembered names of the script change. -/
theorem Orderly.script_eq {x : Lower α} (hx : Orderly given v x) {s s' : State} {a : α}
    (h : x s = .ok (a, s')) :
    s'.script = { s.script with tables := s'.script.tables, names := s'.script.names } := by
  refine hx.composed.relates
    (fun s s' => s'.script =
      { s.script with tables := s'.script.tables, names := s'.script.names })
    (fun _ => rfl) (fun hfirst hsecond => ?_) Step.script_eq h
  rw [hsecond, hfirst]

theorem Orderly.target_eq {x : Lower α} (hx : Orderly given v x) {s s' : State} {a : α}
    (h : x s = .ok (a, s')) : s'.script.target = s.script.target := by
  rw [hx.script_eq h]
  rfl

/-- The error of a cyclic macro has its reason. -/
theorem Orderly.reason {x : Lower α} (hx : Orderly given v x) {s : State}
    (h : x s = .error cyclicError) : v.cycle := by
  have hcomposed := hx.composed
  clear hx
  induction hcomposed generalizing s with
  | pure => cases h
  | throw he => exact he (Except.error.inj h)
  | @step given γ first rest _ _ ih =>
      cases hrun : first.run s with
      | error e =>
          rw [Control.bind_of_eq_error hrun] at h
          cases h
          exact absurd hrun (first.run_ne_cyclic s)
      | ok r =>
          rw [Control.bind_of_eq_ok hrun] at h
          exact ih r.1 h

end GscAssembler.Lowering
