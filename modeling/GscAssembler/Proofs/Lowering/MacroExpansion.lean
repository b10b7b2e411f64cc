import GscAssembler.Proofs.Lowering.Substitution
import GscAssembler.Proofs.Lowering.SyntheticVariables

/-!
# Macros in the places of their names

`MacroTable.expand` puts the expressions of macros in the places of their names, and `Expands` relates
the pending tasks of a machine that knows the macros to those of one that has no macros, but works on
expanded trees.  Each step of the first is matched by at most one of the second (`Expands.step`), so
both come to the same code (`lowerNode_expand`).

There is one exception.  A name that stands as an object is first looked up among the builtin objects,
and only then among the macros.  A macro of such a name is not expanded there, although it is
everywhere else.
-/

namespace GscAssembler

open Code (BuiltinObject Context)
open Control (defineMacro leafNode macroTable)
open SyntaxTree (Node)
open Text (asciiLower)

namespace Lowering

variable {table : MacroTable} {depth : Nat} {expanding : List String} {n : Node}

/-! ## Expanded trees -/

/-- What names mean while macros are being expanded: the expressions of the other macros, which are
expanded themselves.  At most `depth` more can be expanded inside one another. -/
def meanings (table : MacroTable) : (depth : Nat) → (expanding : List String) → String → Option Node
  | 0, _, _ => none
  | depth + 1, expanding, name =>
      if name ∈ expanding then none
      else (table.lookup name).map (substitute (meanings table depth (name :: expanding)))

/-- A tree with the expressions of macros in the places of their names. -/
def MacroTable.expand (table : MacroTable) (n : Node) : Node :=
  substitute (meanings table table.length []) n

theorem meant?_of_named? {name : String} {expression : Node}
    (h : table.named? n = some (name, expression)) (hnew : name ∉ expanding) :
    meant? (meanings table (depth + 1) expanding) n =
      some (substitute (meanings table depth (name :: expanding)) expression) := by
  obtain ⟨text, hkind, htext, rfl, hlookup⟩ := macro_of_named? h
  rw [meant?, if_pos hkind, htext, Option.bind_some, meanings, if_neg hnew, hlookup]
  rfl

theorem meant?_of_named?_eq_none (h : table.named? n = none) :
    meant? (meanings table depth expanding) n = none := by
  unfold meant?
  split
  case isFalse => rfl
  case isTrue hkind =>
      cases htext : n.text? with
      | none => rfl
      | some text =>
          rw [MacroTable.named?, if_pos hkind, htext] at h
          have hlookup : table.lookup (asciiLower text) = none := by simpa using h
          cases depth <;> simp [meanings, hlookup]

/-! ## Machines with and without macros -/

/-- The pending tasks of a machine that knows the macros, and those of a machine that works on expanded
trees.  Which trees a task is about depends on the macros that are being expanded when its turn comes;
the depth suffices for all others. -/
inductive Expands (table : MacroTable) :
    (depth : Nat) → (expanding : List String) → List Task → List Task → Prop where
  /-- Both are done. -/
  | done {depth : Nat} {expanding : List String} : Expands table depth expanding [] []
  /-- Both have the same task. -/
  | task {depth : Nat} {expanding : List String} {t : Task} {rest rest' : List Task}
      (hdepth : (unexpanded table expanding).length ≤ depth) (ht : t ≠ .endMacro)
      (h : Expands table depth expanding rest rest') : Expands table depth expanding (t :: rest)
        (t.mapNodes (substitute (meanings table depth expanding)) :: rest')
  /-- The first ends a macro, of which the second knows nothing. -/
  | endMacro {depth outer : Nat} {expanding : List String} {rest rest' : List Task}
      (h : Expands table outer expanding.tail rest rest') :
      Expands table depth expanding (.endMacro :: rest) rest'

theorem Expands.append {next rest rest' : List Task}
    (hdepth : (unexpanded table expanding).length ≤ depth) (hnext : ∀ t ∈ next, t ≠ .endMacro)
    (h : Expands table depth expanding rest rest') : Expands table depth expanding (next ++ rest)
      (next.map (Task.mapNodes (substitute (meanings table depth expanding))) ++ rest') := by
  induction next with
  | nil => exact h
  | cons t others ih =>
      exact .task hdepth (hnext t List.mem_cons_self)
        (ih fun t ht => hnext t (List.mem_cons_of_mem _ ht))

/-- Whether no name that a machine comes to as an object is that of a macro and of a builtin object. -/
def Machine.ObjectsClear (table : MacroTable) (m : Machine) : Prop :=
  ∀ steps s expanding object context rest,
    m.run table steps = .ok ⟨s, expanding, .resume (.object object context) :: rest⟩ →
    (table.named? object).isSome →
    namedObject? s.script.target.revision object (context.has .isRef) = .ok none

section Steps

variable {m m₁ m' : Machine} {s s' : State} {next rest tasks' : List Task}
  {expanding' : List String} {steps : Nat}

theorem Machine.run_succ (hstep : m.step table = .ok m₁) :
    m.run table (steps + 1) = m₁.run table steps := by
  rw [Machine.run, hstep]
  rfl

theorem Machine.ObjectsClear.step (h : m.ObjectsClear table) (hstep : m.step table = .ok m₁) :
    m₁.ObjectsClear table := by
  intro steps s expanding object context rest hrun
  exact h (steps + 1) s expanding object context rest ((Machine.run_succ hstep).trans hrun)

theorem run_of_start {t : Task} (h : t.start table expanding s = .ok ((next, expanding'), s')) :
    Machine.run table 1 ⟨s, expanding, t :: rest⟩ = .ok ⟨s', expanding', next ++ rest⟩ := by
  have hstep : Machine.step table ⟨s, expanding, t :: rest⟩ = .ok ⟨s', expanding', next ++ rest⟩ := by
    change (t.start table expanding s).bind _ = _
    rw [h]
    rfl
  exact Machine.run_succ hstep

/-- Without macros, a node is begun as planned. -/
theorem start_node_nil {context : Context} (h : planNode n context s = .ok (next, s')) :
    (Task.node n context).start [] [] s = .ok ((next, []), s') := by
  have hnamed : MacroTable.named? [] n = none := by
    unfold MacroTable.named?
    split
    · cases n.text? <;> rfl
    · rfl
  rw [Task.start, hnamed]
  change (planNode n context s).bind _ = _
  rw [h]
  rfl

theorem start_resume {k : Continuation} (h : planRest k s = .ok (next, s')) :
    (Task.resume k).start table expanding s = .ok ((next, expanding), s') := by
  change (planRest k s).bind _ = _
  rw [h]
  rfl

/-- A continuation is matched by the one on expanded trees. -/
theorem planRest_expand {k : Continuation}
    (hobject : ∀ object context, k = .object object context → (table.named? object).isSome →
      namedObject? s.script.target.revision object (context.has .isRef) = .ok none)
    (hplan : planRest k s = .ok (next, s')) :
    planRest (k.mapNodes (substitute (meanings table depth expanding))) s =
      .ok (next.map (Task.mapNodes (substitute (meanings table depth expanding))), s') := by
  by_cases hk : ∃ object context, k = .object object context
  · obtain ⟨object, context, rfl⟩ := hk
    refine planRest_object_substitute (fun expression hmeant => hobject object context rfl ?_) hplan
    rw [Option.isSome_iff_ne_none]
    intro hnone
    rw [meant?_of_named?_eq_none hnone] at hmeant
    cases hmeant
  · exact (matches_rest fun object context heq => hk ⟨object, context, heq⟩).follows hplan

/-- A step of a machine that knows the macros is matched by a step on expanded trees.  Only the end of
a macro is matched by no step at all. -/
theorem Expands.step (h : Expands table depth m.expanding m.tasks tasks')
    (hclear : m.ObjectsClear table) (hstep : m.step table = .ok m₁) :
    ∃ steps tasks₁ depth₁, Machine.run [] steps ⟨m.state, [], tasks'⟩ = .ok ⟨m₁.state, [], tasks₁⟩ ∧
      Expands table depth₁ m₁.expanding m₁.tasks tasks₁ := by
  obtain ⟨s, expanding, tasks⟩ := m
  dsimp only at h
  cases h with
  | done =>
      cases hstep
      exact ⟨0, [], depth, rfl, .done⟩
  | @endMacro _ outer _ _ _ h =>
      cases hstep
      exact ⟨0, tasks', outer, rfl, h⟩
  | @task _ _ t rest rest' hdepth ht h =>
      obtain ⟨⟨⟨next, expanding'⟩, s'⟩, hstart, hresult⟩ := Control.except_bind_eq_ok.mp hstep
      cases hresult
      dsimp only at hstart ⊢
      cases t with
      | endMacro => exact absurd rfl ht
      | resume k =>
          obtain ⟨⟨tasks, s₁⟩, hplan, hresult⟩ := Control.except_bind_eq_ok.mp hstart
          cases hresult
          have hnext := (@plans_rest (macrosDuring table expanding) _ k).below hplan
          have hplan := @planRest_expand table depth expanding _ _ _ _
            (fun object context heq => hclear 0 s expanding object context rest (by rw [heq]; rfl))
            hplan
          exact ⟨1, _, depth, run_of_start (start_resume hplan),
            h.append hdepth fun t ht => (hnext t ht).2⟩
      | node n context =>
          rw [Task.start] at hstart
          cases hnamed : table.named? n with
          | none =>
              rw [hnamed] at hstart
              obtain ⟨⟨tasks, s₁⟩, hplan, hresult⟩ := Control.except_bind_eq_ok.mp hstart
              cases hresult
              have hnext := (plans_node context (code?_of_named?_eq_none hnamed expanding)).below hplan
              have hmatches := @natural_planNode (substitute (meanings table depth expanding)) _
                context n
              rw [← substitute_of_none (meant?_of_named?_eq_none hnamed)] at hmatches
              exact ⟨1, _, depth, run_of_start (start_node_nil (hmatches.follows hplan)),
                h.append hdepth fun t ht => (hnext t ht).2⟩
          | some found =>
              obtain ⟨name, expression⟩ := found
              rw [hnamed] at hstart
              dsimp only at hstart
              split at hstart
              case isTrue => cases hstart
              case isFalse hnew =>
                  cases hstart
                  obtain ⟨_, -, -, -, hlookup⟩ := macro_of_named? hnamed
                  have hlt := length_unexpanded_lt hlookup hnew
                  -- there is depth left, because this macro is not being expanded yet
                  obtain ⟨inner, rfl⟩ : ∃ inner, depth = inner + 1 :=
                    Nat.exists_eq_succ_of_ne_zero (by omega)
                  -- the other machine finds the expression behind parentheses, which are a step too
                  have hplan : planNode (substitute (meanings table (inner + 1) expanding) n) context s =
                      .ok ([.node (substitute (meanings table inner (name :: expanding)) expression)
                        context], s) := by
                    rw [substitute_of_some (meant?_of_named? hnamed hnew)]
                    rfl
                  exact ⟨1, _, inner, run_of_start (start_node_nil hplan),
                    .task (by omega) (fun heq => by cases heq) (.endMacro h)⟩

/-- A run of a machine that knows the macros is matched by a run on expanded trees. -/
theorem Expands.run : ∀ {m : Machine} {tasks' : List Task} {depth : Nat},
    Expands table depth m.expanding m.tasks tasks' → m.ObjectsClear table →
    m.run table steps = .ok m' →
    ∃ steps' tasks₁ depth₁,
      Machine.run [] steps' ⟨m.state, [], tasks'⟩ = .ok ⟨m'.state, [], tasks₁⟩ ∧
      Expands table depth₁ m'.expanding m'.tasks tasks₁ := by
  induction steps with
  | zero =>
      intro m tasks' depth h _ hrun
      cases hrun
      exact ⟨0, tasks', depth, rfl, h⟩
  | succ steps ih =>
      intro m tasks' depth h hclear hrun
      obtain ⟨m₁, hstep, hrest⟩ := Control.except_bind_eq_ok.mp hrun
      obtain ⟨first, tasks₁, depth₁, hfirst, h₁⟩ := h.step hclear hstep
      obtain ⟨second, tasks₂, depth₂, hsecond, h₂⟩ := ih h₁ (hclear.step hstep) hrest
      refine ⟨first + second, tasks₂, depth₂, ?_, h₂⟩
      rw [Machine.run_add]
      exact Control.except_bind_eq_ok.mpr ⟨_, hfirst, hsecond⟩

end Steps

/-- Lowering a tree is lowering the expanded tree without macros. -/
theorem lowerNode_expand {context : Context} {s s' : State}
    (hclear : Machine.ObjectsClear table ⟨s, [], [.node n context]⟩)
    (h : lowerNode (macrosOf table) n context s = .ok ((), s')) :
    lowerNode (macrosOf []) (table.expand n) context s = .ok ((), s') := by
  obtain ⟨steps, hrun⟩ := @completes table [] (.node n context) s []
  rw [Task.code, macrosDuring_nil, perform_eq_ok.mpr h] at hrun
  obtain ⟨steps', tasks₁, _, hrun', hdone⟩ := Expands.run (m := ⟨s, [], [.node n context]⟩)
    (.task (length_unexpanded_le table []) (fun heq => by cases heq) .done) hclear hrun
  cases hdone
  obtain ⟨first, hfirst⟩ := @completes [] [] (.node (table.expand n) context) s []
  rw [Task.code, macrosDuring_nil] at hfirst
  exact Machine.eq_ok_of_run hrun' hfirst

/-! ## Names as objects -/

theorem namedObject?_identifier {text : String} (hn : n.is "identifier") (htext : n.text? = some text)
    (revision : Revision) (isRef : Bool) : namedObject? revision n isRef =
      .ok ((Code.builtinObject? revision text isRef).map fun object => (text, object)) := by
  rw [namedObject?, if_pos hn, Node.text, htext]
  rfl

/-- A name that stands as an object is that of a builtin object, or else a value like any other. -/
theorem lowerObject_identifier {macros : Macros} {text : String} (hn : n.is "identifier")
    (htext : n.text? = some text) (context : Context) (s : State) :
    lowerObject (fragment macros n) context s =
      ((Code.builtinObject? s.script.target.revision text (context.has .isRef)).elim
        (do
          lowerNode macros n .plain
          if context.has .isRef then emitOp .castFieldObject)
        fun object => emitBuiltin text object (context.has .isRef)) s := by
  have hrun (g : Option (String × BuiltinObject) → Lower Unit) :
      (do
        let revision ← getRevision
        let found ← namedObject? revision n (context.has .isRef)
        g found : Lower Unit) s =
      g ((Code.builtinObject? s.script.target.revision text (context.has .isRef)).map
        fun object => (text, object)) s := by
    change (liftM (namedObject? s.script.target.revision n (context.has .isRef)) >>= g : Lower Unit) s = _
    rw [namedObject?_identifier hn htext]
    rfl
  unfold lowerObject
  rw [node_fragment, hrun]
  cases Code.builtinObject? s.script.target.revision text (context.has .isRef) <;> rfl

theorem foldChar_toLower (c : Char) : Text.foldChar c.toLower = Text.foldChar c := by
  have hnat := Text.toNat_toLower c
  by_cases hascii : c.toNat < 128
  · have hlower : c.toLower.toNat < 128 := by
      rw [hnat]
      split <;> omega
    rw [Text.foldChar, Text.foldChar, if_pos hascii, if_pos hlower, Char.toLower_toLower_eq_toLower]
  · have hsame : c.toLower = c := by
      rw [Char.ext_iff, ← UInt32.toNat_inj]
      exact hnat.trans (if_neg (by omega))
    rw [hsame]

/-- The case of a name does not matter to whether it is that of a builtin object. -/
theorem builtinObject?_asciiLower (revision : Revision) (name : String) (isRef : Bool) :
    Code.builtinObject? revision (asciiLower name) isRef = Code.builtinObject? revision name isRef := by
  have hfold (rest : String) :
      Text.foldAscii (asciiLower name ++ rest) = Text.foldAscii (name ++ rest) := by
    have hlower : (asciiLower name).toList.mapM Text.foldChar = name.toList.mapM Text.foldChar := by
      rw [asciiLower, String.toList_map, List.mapM_map]
      congr 1
      funext c
      exact foldChar_toLower c
    rw [Text.foldAscii, Text.foldAscii, String.toList_append, String.toList_append, List.mapM_append,
      List.mapM_append, hlower]
  have hname : Text.foldAscii (asciiLower name) = Text.foldAscii name := by
    simpa using hfold ""
  unfold Code.builtinObject? Text.lookupFolded Text.foldsTo
  simp only [hfold, hname]

/-- Macros that do not have the names of builtin objects are expanded everywhere. -/
theorem objectsClear_of_names (h : ∀ revision isRef, ∀ name ∈ table.map (·.1),
    Code.builtinObject? revision name isRef = none) (m : Machine) : m.ObjectsClear table := by
  intro _ s _ object context _ _ hnamed
  obtain ⟨⟨name, expression⟩, hnamed⟩ := Option.isSome_iff_exists.mp hnamed
  obtain ⟨text, hkind, htext, rfl, hlookup⟩ := macro_of_named? hnamed
  obtain ⟨before, after, htable, -⟩ := List.lookup_eq_some_iff.mp hlookup
  rw [namedObject?_identifier hkind htext, ← builtinObject?_asciiLower,
    h _ _ (asciiLower text) (by simp [htable])]
  rfl

/-! ## The macros of a script -/

/-- The expression that an item of a script defines for a name, in whatever case. -/
def definition? (name : String) (item : Node) : Option Node :=
  if item.is "globals" && item.text?.any (Text.equalsIgnoringAsciiCase name) then item.children.head?
  else none

/-- The expression of a macro of a script: the last definition counts. -/
def macroExpression? (root : Node) (name : String) : Option Node :=
  root.children.reverse.findSome? (definition? name)

theorem lookup_filter_ne (table : MacroTable) {name other : String} (h : other ≠ name) :
    List.lookup other (table.filter (·.1 ≠ name)) = table.lookup other := by
  induction table with
  | nil => rfl
  | cons entry rest ih =>
      obtain ⟨key, expression⟩ := entry
      by_cases hkey : key = name
      · have hne : (other == key) = false := beq_false_of_ne (hkey ▸ h)
        rw [List.filter_cons_of_neg (by simpa using hkey), ih, List.lookup_cons, hne]
      · rw [List.filter_cons_of_pos (by simpa using hkey), List.lookup_cons, List.lookup_cons, ih]

theorem child_zero_eq_ok {child : Node} : n.child 0 = .ok child ↔ n.children.head? = some child := by
  rw [Node.child, List.head?_eq_getElem?]
  cases n.children[0]? <;> simp

theorem lookup_defineMacro (table : MacroTable) (item : Node) (name : String) :
    (defineMacro table item).lookup (asciiLower name) =
      (definition? name item).or (table.lookup (asciiLower name)) := by
  unfold defineMacro
  split
  case h_1 text expression hkind htext hchild =>
      have htext : item.text? = some text := text?_of_text htext
      have hchildren : item.children.head? = some expression := child_zero_eq_ok.mp hchild
      by_cases hname : asciiLower name = asciiLower text
      · have hdefinition : definition? name item = some expression := by
          simp [definition?, Node.is, hkind, htext, Text.equalsIgnoringAsciiCase, hname, hchildren]
        rw [hdefinition, MacroTable.define, hname, List.lookup_cons_self]
        rfl
      · have hdefinition : definition? name item = none := by
          simp [definition?, htext, Text.equalsIgnoringAsciiCase, hname]
        rw [hdefinition, MacroTable.define, List.lookup_cons, beq_false_of_ne hname]
        exact lookup_filter_ne table hname
  case h_2 hother =>
      have hdefinition : definition? name item = none := by
        unfold definition?
        split
        case isFalse => rfl
        case isTrue hdefines =>
            obtain ⟨hkind, htext⟩ := (Bool.and_eq_true _ _).mp hdefines
            obtain ⟨text, htext, -⟩ := (Option.any_eq_true _ _).mp htext
            cases hchild : item.children.head? with
            | none => rfl
            | some expression =>
                refine absurd (child_zero_eq_ok.mpr hchild) (hother text expression (eq_of_beq hkind) ?_)
                rw [Node.text, htext]
      rw [hdefinition]
      rfl

theorem lookup_macroTable (root : Node) (name : String) :
    (macroTable root).lookup (asciiLower name) = macroExpression? root name := by
  have hfold (items : List Node) : (items.foldl defineMacro []).lookup (asciiLower name) =
      items.reverse.findSome? (definition? name) := by
    induction items using List.reverseRecOn with
    | nil => rfl
    | append_singleton items item ih =>
        rw [List.foldl_concat, lookup_defineMacro, ih, List.reverse_concat, List.findSome?_cons]
        cases definition? name item <;> rfl
  exact hfold root.children

/-- A name of a macro, in whatever case. -/
theorem named?_macroTable {root : Node} {name text : String} {expression : Node}
    (hvalue : macroExpression? root name = some expression) (hn : n.is "identifier")
    (htext : n.text? = some text) (hname : asciiLower text = asciiLower name) :
    (macroTable root).named? n = some (asciiLower name, expression) := by
  rw [MacroTable.named?, if_pos hn, htext]
  change ((macroTable root).lookup (asciiLower text)).map _ = _
  rw [hname, lookup_macroTable, hvalue]
  rfl

end Lowering

open Lowering

/-- Macros stand for their expressions.  While a script is lowered, its macros are those of its
definitions, of which the last of a name counts, and a name is that of a macro in whatever case.

As a value or as the target of an assignment, a name of a macro has the code of the macro's expression,
unless the macro is being expanded already.  As an object, it has the code of the builtin object of that
name if there is one, and else the same code as a value.

So a tree has the code of the tree with the expressions in the places of their names, unless an object
comes up that has the name of both a macro and a builtin object. -/
theorem macros_stand_for_expressions (root : Node) :
    (∀ script outline, root.children.foldlM Outline.add { script } = .ok outline →
      outline.macroTable = macroTable root) ∧
    (∀ name expression n text, macroExpression? root name = some expression → n.is "identifier" →
      n.text? = some text → Text.equalsIgnoringAsciiCase text name →
      ∀ expanding context s,
        lowerNode (macrosDuring (macroTable root) expanding) n context s =
          (if asciiLower name ∈ expanding then .error cyclicError
            else lowerNode (macrosDuring (macroTable root) (asciiLower name :: expanding)) expression
              context s) ∧
        lowerObject (fragment (macrosDuring (macroTable root) expanding) n) context s =
          ((Code.builtinObject? s.script.target.revision text (context.has .isRef)).elim
            (do
              lowerNode (macrosDuring (macroTable root) expanding) n .plain
              if context.has .isRef then emitOp .castFieldObject)
            fun object => emitBuiltin text object (context.has .isRef)) s) ∧
    (∀ n context s s', Machine.ObjectsClear (macroTable root) ⟨s, [], [.node n context]⟩ →
      lowerNode (macrosOf (macroTable root)) n context s = .ok ((), s') →
      lowerNode (macrosOf []) ((macroTable root).expand n) context s = .ok ((), s')) := by
  refine ⟨fun script outline houtline => ?_, ?_, fun n context s s' => lowerNode_expand⟩
  · obtain ⟨-, hmacros, -⟩ := Control.foldlM_add_eq_ok root.children houtline
    exact hmacros
  · intro name expression n text hvalue hn htext hname expanding context s
    have hnamed := named?_macroTable hvalue hn htext (eq_of_beq hname)
    refine ⟨?_, lowerObject_identifier hn htext context s⟩
    rw [lowerNode_of_named? hnamed]
    split <;> rfl

/-- A name. -/
def nameNode (name : String) : Node :=
  leafNode "identifier" name

/-- A field of a named object. -/
def fieldNode (object field : String) : Node :=
  .mk "directAccess" (some field) none [nameNode object]

/-- A definition of a macro. -/
def macroNode (name : String) (expression : Node) : Node :=
  .mk "globals" (some name) none [expression]

/-- A script with a macro for a builtin object. -/
def selfMacro (name : String) : Node :=
  .mk "script" none none [macroNode name (nameNode "self")]

/-- A function without any code. -/
def blankFunction : State where
  script := Script.create {}
  function := Code.ScriptFunction.create .legacyLittle "f" 1 2 0 0

theorem definition?_macroNode {name text : String} (expression : Node)
    (h : Text.equalsIgnoringAsciiCase name text) :
    definition? name (macroNode text expression) = some expression :=
  if_pos h

/-- A macro is expanded as a value and as an object, in whatever case it is written. -/
theorem macros_stand_for_expressions_selfMacro :
    (∀ context s, lowerNode (macrosDuring (macroTable (selfMacro "P")) []) (nameNode "p") context s =
      lowerNode (macrosDuring (macroTable (selfMacro "P")) [asciiLower "P"]) (nameNode "self")
        context s) ∧
    ∃ s', lowerNode (macrosOf (macroTable (selfMacro "P"))) (fieldNode "p" "score") .plain
        blankFunction = .ok ((), s') ∧
      lowerNode (macrosOf []) ((macroTable (selfMacro "P")).expand (fieldNode "p" "score")) .plain
        blankFunction = .ok ((), s') := by
  obtain ⟨-, hnames, htrees⟩ := macros_stand_for_expressions (selfMacro "P")
  constructor
  · intro context s
    have hvalue : macroExpression? (selfMacro "P") "P" = some (nameNode "self") := by
      change [macroNode "P" _].findSome? _ = _
      rw [List.findSome?_cons, definition?_macroNode (nameNode "self") (beq_self_eq_true _)]
    have hname : Text.equalsIgnoringAsciiCase "p" "P" := by decide +kernel
    exact (hnames "P" (nameNode "self") (nameNode "p") "p" hvalue rfl rfl hname [] context s).1.trans
      (if_neg List.not_mem_nil)
  · obtain ⟨⟨_, s'⟩, hlower, -⟩ := @Control.exists_of_any _
      (lowerNode (macrosOf (macroTable (selfMacro "P"))) (fieldNode "p" "score") .plain blankFunction)
      (fun _ => true) (by decide +kernel)
    have hclear : ∀ revision isRef, ∀ name ∈ (macroTable (selfMacro "P")).map (·.1),
        Code.builtinObject? revision name isRef = none := by
      intro revision isRef
      cases revision <;> cases isRef <;> decide +kernel
    exact ⟨s', hlower, htrees _ .plain blankFunction s' (objectsClear_of_names hclear _) hlower⟩

/-- A macro with the name of a builtin object is expanded as a value, but not as an object. -/
theorem builtin_object_hides_macro :
    let lower (table : MacroTable) (n : Node) :=
      (lowerNode (macrosOf table) n .plain blankFunction).map (·.2.function.instructions)
    lower (macroTable (selfMacro "level")) (nameNode "level") = lower [] (nameNode "self") ∧
    lower (macroTable (selfMacro "level")) (fieldNode "level" "score") =
      lower [] (fieldNode "level" "score") ∧
    lower [] (fieldNode "level" "score") ≠
      lower [] ((macroTable (selfMacro "level")).expand (fieldNode "level" "score")) := by
  decide +kernel

end GscAssembler
