import GscAssembler.Proofs.Lowering.OrderlyRules

/-!
# Macros

While a macro is expanded, `macrosDuring` tells what a name stands for.  Each macro is expanded
inside itself at most once, so the depth of expansions that the table allows is never used up before
a name repeats (`code?_macrosDuring`).

A macro refers to another if its expression mentions the other's name.  Lowering finds a macro that
leads back to itself only if references do (`orderly_lowerNode_of_path`).
-/

namespace GscAssembler.Lowering

open Code (Context)
open SyntaxTree (Node)
open Text (asciiLower)

variable {v : Vocabulary}

/-! ## Trees and their fragments -/

theorem fragments_eq_map (macros : Macros) (children : List Node) :
    fragments macros children = children.map (fragment macros) := by
  induction children with
  | nil => simp [fragments]
  | cons n rest ih => simp [fragments, ih]

theorem lowerNode_eq (macros : Macros) (n : Node) (context : Context) :
    lowerNode macros n context =
      Construct.lower macros ⟨n, n.children.map (fragment macros)⟩ context := by
  cases n with
  | mk kind text value children =>
      simp only [lowerNode, fragment, Fragment.lower, Node.children, fragments_eq_map]

/-- Whether an identifier of a tree has a name, in whatever case. -/
inductive Mentions (name : String) : Node → Prop where
  | here {n : Node} {text : String} (hkind : n.is "identifier") (htext : n.text? = some text)
      (hname : asciiLower text = name) : Mentions name n
  | inside {n child : Node} (hchild : child ∈ n.children) (h : Mentions name child) :
      Mentions name n

theorem is_identifier_of_ofName? {n : Node} (h : Kind.ofName? n.kind = some .identifier) :
    n.is "identifier" := by
  obtain ⟨before, after, hnames, -⟩ := List.lookup_eq_some_iff.mp h
  have hmem : (n.kind, Kind.identifier) ∈ kindNames := by simp [hnames]
  have hkind : n.kind = "identifier" := by simpa [kindNames] using hmem
  simp [Node.is, hkind]

theorem orderly_construct {macros : Macros} {c : Construct} [hc : c.Orderly v]
    (hmacros : ∀ name, Mentions name c.node → ∀ code ∈ macros.code? name, ∀ context,
      Orderly True v (code context)) (context : Context) :
    Orderly True v (c.lower macros context) := by
  unfold Construct.lower
  cases hkind : Kind.ofName? c.node.kind with
  | none => infer_instance
  | some kind =>
      cases kind with
      | sequence =>
          refine orderly_forM fun p hp => ?_
          have := hc.parts p hp
          infer_instance
      | ifStatement => exact orderly_lowerIf false
      | conditional => exact orderly_lowerIf true
      | whileStatement => exact orderly_lowerWhile
      | forStatement => exact orderly_lowerFor
      | foreachSingle => exact orderly_lowerForeach false
      | foreachDouble => exact orderly_lowerForeach true
      | switchStatement => exact orderly_lowerSwitch
      | jumpStatement => exact orderly_lowerLoopJump c.node
      | returnStatement => exact orderly_lowerReturn
      | wait => exact orderly_lowerUnary .wait
      | waitTillFrameEnd => exact inferInstanceAs (Orderly True v (emitOp _))
      | simpleCall => exact orderly_part fun _ _ => inferInstance
      | call => exact orderly_lowerCall context
      | assignment => exact orderly_lowerAssignment
      | shortHandArray => exact orderly_malformed c.node (by decide)
      | identifier =>
          refine orderly_lowerIdentifier fun name hname code hcode => ?_
          exact hmacros _ (.here (is_identifier_of_ofName? hkind) hname rfl) code hcode context
      | directAccess => exact orderly_lowerField context
      | definedAccess => exact orderly_lowerDefinedField context
      | element => exact orderly_lowerElement context
      | booleanExpression => exact orderly_lowerBoolean context
      | boolNot => exact orderly_lowerUnary .boolNot
      | size => exact orderly_lowerUnary .sizeOf
      | relationalExpression => exact orderly_lowerBinary Code.compareOp?
      | expression => exact orderly_lowerBinary Code.mathOp?
      | coalesce => exact orderly_lowerCoalesce
      | typeComparison => exact orderly_lowerTypeTest false
      | typeComparisonInverted => exact orderly_lowerTypeTest true
      | castOp => exact orderly_lowerCast
      | stringLiteral => exact orderly_then fun text => inferInstance
      | localizedString => exact orderly_then fun text => inferInstance
      | debugString => exact orderly_lowerDebugString c.node
      | hashedString => exact orderly_lowerHashed c.node
      | canonicalHash => exact orderly_lowerCanonicalHash c.node
      | numberLiteral => exact orderly_lowerNumber c.node
      | vector => exact orderly_lowerVector
      | newArray => exact inferInstanceAs (Orderly True v (emitOp _))
      | functionPointer => exact orderly_lowerFunctionPointer

mutual

theorem orderly_fragment {macros : Macros} : ∀ n : Node, Known True v n →
    (∀ name, Mentions name n → ∀ code ∈ macros.code? name, ∀ context,
      Orderly True v (code context)) → (fragment macros n).Orderly v
  | .mk kind text value children, hn, h => by
      have hparts := orderly_fragments children (fun n => hn.child) fun n hn name hname =>
        h name (.inside hn hname)
      rw [fragment]
      have : Construct.Orderly v ⟨.mk kind text value children, fragments macros children⟩ :=
        ⟨hn, hparts⟩
      exact .mk hn hparts fun context => orderly_construct h context

theorem orderly_fragments {macros : Macros} : ∀ children : List Node,
    (∀ n ∈ children, Known True v n) →
    (∀ n ∈ children, ∀ name, Mentions name n → ∀ code ∈ macros.code? name, ∀ context,
      Orderly True v (code context)) → ∀ p ∈ fragments macros children, p.Orderly v
  | [], _, _ => by simp [fragments]
  | n :: rest, hknown, h => by
      have hfirst := orderly_fragment n (hknown n List.mem_cons_self) (h n List.mem_cons_self)
      have hrest := orderly_fragments rest (fun m hm => hknown m (List.mem_cons_of_mem _ hm))
        fun m hm => h m (List.mem_cons_of_mem _ hm)
      simpa [fragments] using ⟨hfirst, hrest⟩

end

/-- Lowering is orderly if the macros that the tree mentions are. -/
theorem orderly_lowerNode {macros : Macros} {n : Node} (hn : Known True v n)
    (h : ∀ name, Mentions name n → ∀ code ∈ macros.code? name, ∀ context,
      Orderly True v (code context)) (context : Context) :
    Orderly True v (lowerNode macros n context) := by
  have := orderly_fragment n hn h
  exact inferInstanceAs (Orderly True v ((fragment macros n).lower context))

/-! ## Macros while some are being expanded -/

/-- The names of macros that are not being expanded. -/
def unexpanded (table : MacroTable) (expanding : List String) : List String :=
  ((table.map (·.1)).dedup).filter (· ∉ expanding)

theorem length_unexpanded_le (table : MacroTable) (expanding : List String) :
    (unexpanded table expanding).length ≤ table.length := by
  calc (unexpanded table expanding).length
      ≤ (table.map (·.1)).dedup.length := List.length_filter_le _ _
    _ ≤ (table.map (·.1)).length := (List.dedup_sublist _).length_le
    _ = table.length := List.length_map _

theorem mem_unexpanded {table : MacroTable} {expanding : List String} {name : String}
    {expression : Node} (hname : table.lookup name = some expression) :
    name ∈ unexpanded table expanding ↔ name ∉ expanding := by
  obtain ⟨before, after, rfl, -⟩ := List.lookup_eq_some_iff.mp hname
  simp [unexpanded]

/-- Expanding a macro leaves one less that can be expanded. -/
theorem length_unexpanded_lt {table : MacroTable} {expanding : List String} {name : String}
    {expression : Node} (hname : table.lookup name = some expression) (hnew : name ∉ expanding) :
    (unexpanded table (name :: expanding)).length < (unexpanded table expanding).length := by
  have hsub : unexpanded table (name :: expanding) =
      (unexpanded table expanding).filter (· ≠ name) := by
    simp only [unexpanded, List.filter_filter, List.mem_cons, not_or]
    refine List.filter_congr fun other _ => ?_
    simp
  rw [hsub]
  refine List.length_filter_lt_length_iff_exists.mpr ⟨name, ?_, by simp⟩
  exact (mem_unexpanded hname).mpr hnew

/-- The macros of a table while some of them are being expanded. -/
def macrosDuring (table : MacroTable) (expanding : List String) : Macros :=
  expansions table table.length expanding

theorem macrosDuring_nil (table : MacroTable) : macrosDuring table [] = macrosOf table := rfl

/-- What a name stands for, at a depth that suffices. -/
theorem expansions_eq {table : MacroTable} {depth : Nat} {expanding : List String}
    (hdepth : (unexpanded table expanding).length ≤ depth) :
    expansions table depth expanding =
      ⟨fun name => (table.lookup name).map fun expression context =>
        if name ∈ expanding then cyclicMacro
        else lowerNode (expansions table (depth - 1) (name :: expanding)) expression context⟩ := by
  cases depth with
  | succ depth => rfl
  | zero =>
      have hnone : unexpanded table expanding = [] := List.eq_nil_of_length_eq_zero (by omega)
      rw [expansions]
      congr 1
      funext name
      cases hname : table.lookup name with
      | none => rfl
      | some expression =>
          have hmem : name ∈ expanding := by
            by_contra hnew
            simpa [hnone] using (mem_unexpanded hname).mpr hnew
          simp [hmem]

/-- Any two depths that suffice give the same macros. -/
theorem expansions_congr_depth {table : MacroTable} {depth : Nat} :
    ∀ {depth' : Nat} {expanding : List String}, (unexpanded table expanding).length ≤ depth →
      (unexpanded table expanding).length ≤ depth' →
      expansions table depth expanding = expansions table depth' expanding := by
  induction depth using Nat.strong_induction_on with
  | _ depth ih =>
      intro depth' expanding h h'
      rw [expansions_eq h, expansions_eq h']
      congr 1
      funext name
      cases hname : table.lookup name with
      | none => rfl
      | some expression =>
          by_cases hmem : name ∈ expanding
          · simp [hmem]
          · have hlt := length_unexpanded_lt hname hmem
            have heq : expansions table (depth - 1) (name :: expanding) =
                expansions table (depth' - 1) (name :: expanding) :=
              ih (depth - 1) (by omega) (by omega) (by omega)
            simp [hmem, heq]

/-- What a name stands for while macros are being expanded. -/
theorem code?_macrosDuring (table : MacroTable) (expanding : List String) (name : String) :
    (macrosDuring table expanding).code? name = (table.lookup name).map fun expression context =>
      if name ∈ expanding then cyclicMacro
      else lowerNode (macrosDuring table (name :: expanding)) expression context := by
  have hle := length_unexpanded_le table expanding
  rw [macrosDuring, expansions_eq hle]
  cases hname : table.lookup name with
  | none => simp [hname]
  | some expression =>
      by_cases hmem : name ∈ expanding
      · simp [hname, hmem]
      · have hlt := length_unexpanded_lt hname hmem
        have heq : expansions table (table.length - 1) (name :: expanding) =
            macrosDuring table (name :: expanding) :=
          expansions_congr_depth (by omega) (length_unexpanded_le table _)
        simp [hname, hmem, heq]

theorem orderly_cyclicMacro (hcycle : v.cycle) : Orderly True v cyclicMacro :=
  ⟨.throw fun _ => hcycle⟩

/-- Lowering is orderly whatever the macros are, if they may be cyclic. -/
theorem orderly_expansions {table : MacroTable} (hcycle : v.cycle)
    (hknown : ∀ name expression, table.lookup name = some expression → Known True v expression)
    (depth : Nat) : ∀ (expanding : List String) (name : String),
      ∀ code ∈ (expansions table depth expanding).code? name, ∀ context,
        Orderly True v (code context) := by
  have := orderly_cyclicMacro hcycle
  induction depth with
  | zero =>
      intro expanding name code hcode context
      obtain ⟨expression, -, rfl⟩ := Option.map_eq_some_iff.mp hcode
      infer_instance
  | succ depth ih =>
      intro expanding name code hcode context
      obtain ⟨expression, hname, rfl⟩ := Option.map_eq_some_iff.mp hcode
      have := orderly_lowerNode (hknown name expression hname)
        (fun other _ => ih (name :: expanding) other) context
      infer_instance

instance (table : MacroTable) (expanding : List String) (n : Node) (context : Context) :
    Orderly True (.all True) (lowerNode (macrosDuring table expanding) n context) :=
  orderly_lowerNode inferInstance
    (fun name _ => orderly_expansions trivial (fun _ _ _ => inferInstance) table.length expanding
      name) context

/-! ## Cycles -/

/-- A macro refers to another if its expression mentions the other's name. -/
def Refers (table : MacroTable) (name other : String) : Prop :=
  (∃ expression, table.lookup name = some expression ∧ Mentions other expression) ∧
    (table.lookup other).isSome

/-- Whether some macro leads back to itself. -/
def Cyclic (table : MacroTable) : Prop :=
  ∃ name, Relation.TransGen (Refers table) name name

/-- Macros being expanded, the innermost first, of which each leads to the innermost, and that one
to all that is mentioned. -/
def Path (table : MacroTable) (expanding : List String) (n : Node) : Prop :=
  ∀ name ∈ expanding, ∀ other, Mentions other n → (table.lookup other).isSome →
    Relation.TransGen (Refers table) name other

theorem path_nil (table : MacroTable) (n : Node) : Path table [] n :=
  fun _ hmem => absurd hmem List.not_mem_nil

theorem Path.expand {table : MacroTable} {expanding : List String} {n expression : Node}
    {name : String} (h : Path table expanding n) (hmention : Mentions name n)
    (hname : table.lookup name = some expression) : Path table (name :: expanding) expression := by
  intro first hfirst other hother hdefined
  have hstep : Refers table name other := ⟨⟨expression, hname, hother⟩, hdefined⟩
  rcases List.mem_cons.mp hfirst with rfl | hfirst
  · exact .single hstep
  · exact .tail (h first hfirst name hmention (by simp [hname])) hstep

/-- Lowering finds a cyclic macro only if there is one. -/
theorem orderly_lowerNode_of_path {table : MacroTable} :
    ∀ {expanding : List String} {n : Node}, Path table expanding n → ∀ context,
      Orderly True (.all (Cyclic table)) (lowerNode (macrosDuring table expanding) n context) := by
  intro expanding
  -- the induction is on the macros that are not being expanded yet
  induction hcount : (unexpanded table expanding).length using Nat.strong_induction_on
    generalizing expanding with
  | _ count ih =>
      subst hcount
      intro n hpath context
      refine orderly_lowerNode inferInstance (fun name hmention code hcode context => ?_) context
      rw [code?_macrosDuring] at hcode
      obtain ⟨expression, hname, rfl⟩ := Option.map_eq_some_iff.mp hcode
      dsimp only
      split
      case isTrue hmem =>
          refine orderly_cyclicMacro ⟨name, ?_⟩
          exact hpath name hmem name hmention (by simp [hname])
      case isFalse hnew =>
          exact ih _ (length_unexpanded_lt hname hnew) rfl (hpath.expand hmention hname) context

end GscAssembler.Lowering
