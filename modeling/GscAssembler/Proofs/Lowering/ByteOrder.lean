import GscAssembler.Proofs.Code.ChainSlots
import GscAssembler.Proofs.Lowering.Termination

/-!
# Lowering does not look at the byte order

`withOrder` changes the byte order that something is compiled for, and nothing else.  Every step of
lowering does the same in another byte order (`Step.run_withOrder`), and so does all that is made of
steps (`Composed.run_withOrder`), up to the script of a tree (`buildScript_withOrder`): it is the same
script, or the same error.
-/

namespace GscAssembler

open Bytes (ByteOrder)

/-- The target of another byte order. -/
def Target.withOrder (t : Target) (order : ByteOrder) : Target :=
  { t with order }

/-- The settings for another byte order. -/
def Settings.withOrder (settings : Settings) (order : ByteOrder) : Settings :=
  { settings with target := settings.target.withOrder order }

/-- The function, compiled for another byte order. -/
def Code.ScriptFunction.withOrder (f : ScriptFunction) (order : ByteOrder) : ScriptFunction :=
  { f with target := f.target.withOrder order }

/-- The script, compiled for another byte order. -/
def Script.withOrder (s : Script) (order : ByteOrder) : Script :=
  { s with
    settings := s.settings.withOrder order
    functions := s.functions.map (·.withOrder order) }

namespace Script

variable (s : Script) (order : ByteOrder)

theorem hash_withOrder (name : String) :
    (s.withOrder order).hash name = (s.hash name).map fun r => (r.1, r.2.withOrder order) := by
  change (s.names.hash s.target.revision name).bind _ =
    ((s.names.hash s.target.revision name).bind _).map _
  cases s.names.hash s.target.revision name <;> rfl

theorem hash64_withOrder (name : String) :
    (s.withOrder order).hash64 name = (s.hash64 name).map fun r => (r.1, r.2.withOrder order) := by
  change (s.names.hash64 s.target.revision name).bind _ =
    ((s.names.hash64 s.target.revision name).bind _).map _
  cases s.names.hash64 s.target.revision name <;> rfl

theorem create_withOrder (settings : Settings) :
    create (settings.withOrder order) = (create settings).withOrder order := by
  have hempty : (Code.Chain.empty.map fun f : Code.ScriptFunction => f.withOrder order) =
      Code.Chain.empty := by
    simp [Code.Chain.map, Code.Chain.empty]
  simp only [create, withOrder, hempty]
  rfl

theorem addInclude_withOrder (path : String) :
    (s.withOrder order).addInclude path =
      ((s.addInclude path).1, (s.addInclude path).2.withOrder order) := by
  unfold addInclude
  dsimp only
  rw [show (s.withOrder order).includes = s.includes from rfl]
  split <;> rfl

theorem addFunction_withOrder (f : Code.ScriptFunction) :
    (s.withOrder order).addFunction (f.withOrder order) =
      (s.addFunction f).map fun r => (r.1, r.2.withOrder order) := by
  have hfind (hash namespaceHash : UInt32) : (s.withOrder order).findFunction? hash namespaceHash =
      s.findFunction? hash namespaceHash := by
    unfold findFunction? withOrder
    rw [Code.Chain.toList_map, List.find?_map, Option.map_map]
    rfl
  have hpush := Code.Chain.push_map (fun f : Code.ScriptFunction => f.withOrder order) s.functions f
  unfold addFunction
  rw [show (f.withOrder order).hash = f.hash from rfl,
    show (f.withOrder order).namespaceHash = f.namespaceHash from rfl, hfind]
  cases s.findFunction? f.hash f.namespaceHash with
  | some key => rfl
  | none =>
      simp only [withOrder, hpush]
      rfl

theorem setNamespace_withOrder (name : String) :
    (s.withOrder order).setNamespace name =
      (s.setNamespace name).map fun s => s.withOrder order := by
  unfold setNamespace
  rw [hash_withOrder]
  cases s.hash name <;> rfl

end Script

namespace Lowering

open Code (Key PendingJump ScriptFunction)
open SyntaxTree (Node)

variable {α β : Type} {given : Prop} {v : Vocabulary} (order : ByteOrder)

/-- The state, for another byte order. -/
def State.withOrder (s : State) (order : ByteOrder) : State :=
  ⟨s.script.withOrder order, s.function.withOrder order⟩

/-- A result with the state for another byte order. -/
def resultWithOrder (order : ByteOrder) (r : α × State) : α × State :=
  (r.1, r.2.withOrder order)

/-! ## Steps -/

theorem updateFunction_withOrder {f : ScriptFunction → Except CompileError (β × ScriptFunction)}
    (hf : ∀ function, f (function.withOrder order) =
      (f function).map fun r => (r.1, r.2.withOrder order)) (s : State) :
    updateFunction f (s.withOrder order) = (updateFunction f s).map (resultWithOrder order) := by
  change (f (s.function.withOrder order)).bind _ = _
  rw [hf]
  change _ = ((f s.function).bind _).map _
  cases f s.function <;> rfl

theorem settle_withOrder (header : Option Key) (footer : Key) (pending : List PendingJump)
    (f : ScriptFunction) : ScriptFunction.settle header footer pending (f.withOrder order) =
      ((ScriptFunction.settle header footer pending f).1,
        (ScriptFunction.settle header footer pending f).2.withOrder order) := by
  fun_induction ScriptFunction.settle header footer pending f with
  | case1 f => rfl
  | case2 header jump rest f ih => exact ih
  | case3 jump rest f header ih => exact ih
  | case4 jump rest f outer scopes hscopes ih =>
      have hscopes' : (f.withOrder order).scopes = outer :: scopes := hscopes
      simp only [ScriptFunction.settle, hscopes']
      exact ih
  | case5 jump rest f hscopes =>
      have hscopes' : (f.withOrder order).scopes = [] := hscopes
      simp only [ScriptFunction.settle, hscopes']

theorem exitLoop_withOrder (f : ScriptFunction) (header : Option Key) (footer : Key) :
    (f.withOrder order).exitLoop header footer =
      ((f.exitLoop header footer).1, (f.exitLoop header footer).2.withOrder order) := by
  unfold ScriptFunction.exitLoop
  rw [show (f.withOrder order).scopes = f.scopes from rfl]
  cases f.scopes with
  | nil => rfl
  | cons pending outer => exact settle_withOrder order header footer pending { f with scopes := outer }

theorem Step.run_withOrder (step : Step β) (s : State) :
    step.run (s.withOrder order) = (step.run s).map (resultWithOrder order) := by
  cases step with
  | hash name =>
      change ((s.script.withOrder order).hash name).bind _ = ((s.script.hash name).bind _).map _
      rw [Script.hash_withOrder]
      cases s.script.hash name <;> rfl
  | hash64 name =>
      change ((s.script.withOrder order).hash64 name).bind _ = ((s.script.hash64 name).bind _).map _
      rw [Script.hash64_withOrder]
      cases s.script.hash64 name <;> rfl
  | addLocal name =>
      have haddLocal : (s.function.withOrder order).addLocal name =
          (s.function.addLocal name).withOrder order := by
        unfold ScriptFunction.addLocal
        rw [show (s.function.withOrder order).hasLocal name = s.function.hasLocal name from rfl]
        split <;> rfl
      change Except.ok ((), State.mk _ ((s.function.withOrder order).addLocal name)) = _
      rw [haddLocal]
      rfl
  | switchKey =>
      rw [run]
      refine updateFunction_withOrder order (fun f => ?_) s
      unfold ScriptFunction.popSwitchKey
      rw [show (f.withOrder order).switchKeys = f.switchKeys from rfl]
      cases f.switchKeys <;> rfl
  | foreachLocals =>
      rw [run]
      refine updateFunction_withOrder order (fun f => ?_) s
      unfold ScriptFunction.popForeachLocals
      rw [show (f.withOrder order).foreachKeys = f.foreachKeys from rfl]
      cases f.foreachKeys <;> rfl
  | number value =>
      rw [run]
      refine updateFunction_withOrder order (fun f => ?_) s
      unfold ScriptFunction.addNumber
      cases value.checked <;> rfl
  | loopJump kind levels =>
      rw [run]
      refine updateFunction_withOrder order (fun f => ?_) s
      unfold ScriptFunction.addLoopJump
      rw [show (f.withOrder order).scopes = f.scopes from rfl]
      dsimp only
      split <;> rfl
  | exitLoop header footer =>
      rw [run]
      refine updateFunction_withOrder order (fun f => ?_) s
      rw [exitLoop_withOrder]
      rcases f.exitLoop header footer with ⟨_ | error, f⟩ <;> rfl
  | _ => rfl

/-- What is made of steps does the same in another byte order. -/
theorem Composed.run_withOrder {result : α → Prop} {x : Lower α} (hx : Composed v result given x)
    (s : State) : x (s.withOrder order) = (x s).map (resultWithOrder order) := by
  induction hx generalizing s with
  | pure => rfl
  | throw => rfl
  | @step _ _ first rest _ _ ih =>
      change (first.run (s.withOrder order)).bind _ = ((first.run s).bind _).map _
      rw [first.run_withOrder]
      cases first.run s with
      | error e => rfl
      | ok r => exact ih r.1 r.2

/-! ## Functions and scripts -/

theorem startOf_withOrder (n : Node) (s : Script) :
    Control.startOf n (s.withOrder order) =
      (Control.startOf n s).map fun r => (r.1, r.2.withOrder order) := by
  unfold Control.startOf
  cases n.text with
  | error e => rfl
  | ok name =>
      cases n.findChild? "block" with
      | none => rfl
      | some body =>
          simp only [bind, Except.bind]
          cases requireAtMost "parameters" (Control.parametersOf n).length maxParameters with
          | error e => rfl
          | ok _ =>
              dsimp only
              rw [Script.hash_withOrder]
              cases s.hash (Text.asciiLower name) <;> rfl

theorem lowerFunction_withOrder (table : MacroTable) (n : Node) (s : Script) :
    lowerFunction (macrosOf table) n (s.withOrder order) =
      (lowerFunction (macrosOf table) n s).map
        fun r => (r.1.withOrder order, r.2.withOrder order) := by
  rw [Control.lowerFunction_eq, Control.lowerFunction_eq, startOf_withOrder]
  cases Control.startOf n s with
  | error e => rfl
  | ok start =>
      have hbody := (orderly_lowerBody table (Control.parametersOf n) start.1).composed.run_withOrder
        order start.2
      change (lowerBody (macrosOf table) (Control.parametersOf n) start.1
        (start.2.withOrder order)).bind _ = ((lowerBody (macrosOf table) (Control.parametersOf n)
        start.1 start.2).bind _).map _
      rw [hbody]
      cases lowerBody (macrosOf table) (Control.parametersOf n) start.1 start.2 <;> rfl

theorem addFunction_withOrder (table : MacroTable) (s : Script) (n : Node) :
    addFunction (macrosOf table) (s.withOrder order) n =
      (addFunction (macrosOf table) s n).map fun s => s.withOrder order := by
  unfold addFunction
  rw [lowerFunction_withOrder]
  cases lowerFunction (macrosOf table) n s with
  | error e => rfl
  | ok r =>
      change ((r.2.withOrder order).addFunction (r.1.withOrder order)).bind _ =
        ((r.2.addFunction r.1).bind _).map _
      rw [Script.addFunction_withOrder]
      cases r.2.addFunction r.1 <;> rfl

/-- Items of a script are taken in alike. -/
theorem add_withOrder (o : Outline) (item : Node) :
    ({ o with script := o.script.withOrder order } : Outline).add item =
      (o.add item).map fun o => { o with script := o.script.withOrder order } := by
  unfold Outline.add
  split
  · rfl
  · cases item.text with
    | error e => rfl
    | ok path =>
        change Except.ok { o with script := ((o.script.withOrder order).addInclude path).2 } = _
        rw [Script.addInclude_withOrder]
        rfl
  · cases item.text with
    | error e => rfl
    | ok name => cases item.child 0 <;> rfl
  · cases item.text with
    | error e => rfl
    | ok name =>
        simp only [bind, Except.bind]
        split <;> rfl
  · rfl

/-- A fold that may fail, through a change of what is folded. -/
theorem foldlM_map {γ δ : Type} {f : γ → δ → Except CompileError γ} {change : γ → γ}
    (h : ∀ c d, f (change c) d = (f c d).map change) (items : List δ) : ∀ c,
    items.foldlM f (change c) = (items.foldlM f c).map change := by
  induction items with
  | nil => exact fun _ => rfl
  | cons item rest ih =>
      intro c
      rw [List.foldlM_cons, List.foldlM_cons, h]
      cases f c item with
      | error e => rfl
      | ok c' => exact ih c'

/-- The script of a tree is the same in another byte order, or the same error. -/
theorem buildScript_withOrder (settings : Settings) (root : Node) :
    buildScript (settings.withOrder order) root =
      (buildScript settings root).map fun s => s.withOrder order := by
  have hitems (script : Script) :
      (root.children.foldlM Outline.add { script := script.withOrder order } >>= fun outline =>
        outline.functions.reverse.foldlM (addFunction (macrosOf outline.macroTable))
          outline.script) =
      (root.children.foldlM Outline.add { script } >>= fun outline =>
        outline.functions.reverse.foldlM (addFunction (macrosOf outline.macroTable))
          outline.script).map fun s => s.withOrder order := by
    have houtline := foldlM_map (add_withOrder order) root.children { script }
    rw [houtline]
    cases root.children.foldlM Outline.add { script } with
    | error e => rfl
    | ok outline => exact foldlM_map (addFunction_withOrder order outline.macroTable) _ _
  unfold buildScript
  dsimp only
  rw [Script.create_withOrder]
  split
  · rfl
  cases root.findChild? "namespace" with
  | none => exact hitems _
  | some n =>
      dsimp only
      cases n.text with
      | error e => rfl
      | ok name =>
          change (((Script.create settings).withOrder order).setNamespace name).bind _ =
            (((Script.create settings).setNamespace name).bind _).map _
          rw [Script.setNamespace_withOrder]
          cases (Script.create settings).setNamespace name with
          | error e => rfl
          | ok script => exact hitems script

end Lowering

end GscAssembler
