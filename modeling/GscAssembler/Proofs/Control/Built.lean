import GscAssembler.Proofs.Control.Lowered
import GscAssembler.Proofs.Image.Compile

/-!
# Scripts built from trees

The items of a script's tree are taken in before any function is lowered, so every function is lowered
with the same macros, settings and namespace.  Only the tables and names grow from one function to the
next.  `exists_of_buildScript` lists, for each function node, the function that it was lowered to.
-/

namespace GscAssembler.Control

open Code (Chain ScriptFunction)
open Lowering
open Reference (Tables)
open SyntaxTree (Node)

/-! ## The outline of a script -/

/-- The nodes of the functions of a script. -/
def functionNodes (root : Node) : List Node :=
  root.children.filter (·.kind = "function")

/-- The macros of a table and of an item, if that defines one. -/
def defineMacro (table : MacroTable) (item : Node) : MacroTable :=
  match item.kind, item.text, item.child 0 with
  | "globals", .ok name, .ok expression => table.define (Text.asciiLower name) expression
  | _, _, _ => table

/-- The macros that a script defines. -/
def macroTable (root : Node) : MacroTable :=
  root.children.foldl defineMacro []

theorem add_eq_ok {o o' : Outline} {item : Node} (h : o.add item = .ok o') :
    o'.script = { o.script with includes := o'.script.includes } ∧
    o'.macroTable = defineMacro o.macroTable item ∧
    o'.functions = (if item.kind = "function" then [item] else []) ++ o.functions := by
  have hother : item.kind ≠ "globals" → defineMacro o.macroTable item = o.macroTable := by
    intro hkind
    unfold defineMacro
    split
    · exact absurd ‹_› hkind
    · rfl
  unfold Outline.add at h
  split at h
  case h_1 hkind =>
    cases h
    exact ⟨rfl, (hother (by simp [hkind])).symm, by simp [hkind]⟩
  case h_2 hkind =>
    obtain ⟨path, -, h⟩ := except_bind_eq_ok.mp h
    cases h
    refine ⟨?_, (hother (by simp [hkind])).symm, by simp [hkind]⟩
    simp only [Script.addInclude]
    split <;> rfl
  case h_3 hkind =>
    obtain ⟨name, hname, h⟩ := except_bind_eq_ok.mp h
    obtain ⟨expression, hexpression, h⟩ := except_bind_eq_ok.mp h
    cases h
    exact ⟨rfl, by simp [defineMacro, hkind, hname, hexpression], by simp [hkind]⟩
  case h_4 hkind =>
    obtain ⟨name, -, h⟩ := except_bind_eq_ok.mp h
    dsimp only at h
    split at h
    · cases h
    · cases h
      exact ⟨rfl, (hother (by simp [hkind])).symm, by simp [hkind]⟩
  case h_5 => cases h

/-- What the items of a script leave behind. -/
theorem foldlM_add_eq_ok (items : List Node) : ∀ {o o' : Outline},
    items.foldlM Outline.add o = .ok o' →
      o'.script = { o.script with includes := o'.script.includes } ∧
      o'.macroTable = items.foldl defineMacro o.macroTable ∧
      o'.functions.reverse = o.functions.reverse ++ items.filter (·.kind = "function") := by
  induction items with
  | nil =>
      intro o o' h
      cases h
      exact ⟨rfl, rfl, by simp⟩
  | cons item rest ih =>
      intro o o' h
      rw [List.foldlM_cons] at h
      obtain ⟨o₁, hfirst, hrest⟩ := except_bind_eq_ok.mp h
      obtain ⟨hscript, hmacros, hfunctions⟩ := add_eq_ok hfirst
      obtain ⟨hscript', hmacros', hfunctions'⟩ := ih hrest
      refine ⟨by rw [hscript', hscript], by rw [hmacros', hmacros, List.foldl_cons], ?_⟩
      rw [hfunctions', hfunctions, List.filter_cons]
      by_cases hkind : item.kind = "function" <;> simp [hkind]

/-! ## Functions one after the other -/

/-- Whether a function was lowered from a node, for a script that came to have the tables. -/
def LoweredFrom (settings : Settings) (namespaceHash : UInt32) (macros : Macros) (tables : Tables)
    (n : Node) (f : ScriptFunction) : Prop :=
  ∃ script script' : Script, script.settings = settings ∧ script.namespaceHash = namespaceHash ∧
    script.tables.Indexed ∧ lowerFunction macros n script = .ok (f, script') ∧
    script'.tables.Extends tables

theorem LoweredFrom.mono {settings : Settings} {namespaceHash : UInt32} {macros : Macros}
    {tables tables' : Tables} (htables : tables.Extends tables') {n : Node} {f : ScriptFunction}
    (h : LoweredFrom settings namespaceHash macros tables n f) :
    LoweredFrom settings namespaceHash macros tables' n f := by
  obtain ⟨script, script', hsettings, hnamespace, hindexed, hlower, hextends⟩ := h
  exact ⟨script, script', hsettings, hnamespace, hindexed, hlower, hextends.trans htables⟩

theorem addFunction_eq_ok {macros : Macros} {script script' : Script} {n : Node}
    (h : addFunction macros script n = .ok script') :
    ∃ f lowered, lowerFunction macros n script = .ok (f, lowered) ∧
      script' = { lowered with functions := (lowered.functions.push f).2 } := by
  obtain ⟨⟨f, lowered⟩, hlower, h⟩ := except_bind_eq_ok.mp h
  obtain ⟨⟨key, added⟩, hadd, h⟩ := except_bind_eq_ok.mp h
  cases h
  refine ⟨f, lowered, hlower, ?_⟩
  unfold Script.addFunction at hadd
  split at hadd
  · cases hadd
  · cases hadd
    rfl

/-- What lowering the functions of a script one after the other gives. -/
theorem foldlM_addFunction_eq_ok {macros : Macros} {macros' : SketchedMacros} (nodes : List Node) :
    ∀ {script script' : Script} {functions : List ScriptFunction},
      MatchingMacros script.target macros macros' → script.tables.Indexed →
      script.functions = .ofList functions → nodes.foldlM (addFunction macros) script = .ok script' →
      ∃ added, script' = { script with
          functions := .ofList (functions ++ added), tables := script'.tables
          names := script'.names } ∧
        script'.tables.Indexed ∧ script.tables.Extends script'.tables ∧
        List.Forall₂ (LoweredFrom script.settings script.namespaceHash macros script'.tables)
          nodes added := by
  induction nodes with
  | nil =>
      intro script script' functions _ htables hfunctions h
      cases h
      exact ⟨[], by simp [← hfunctions], htables, .refl _, .nil⟩
  | cons n rest ih =>
      intro script script' functions hmacros htables hfunctions h
      rw [List.foldlM_cons] at h
      obtain ⟨script₁, hfirst, hrest⟩ := except_bind_eq_ok.mp h
      obtain ⟨f, lowered, hlower, hadded⟩ := addFunction_eq_ok hfirst
      obtain ⟨⟨hscript, hindexed, hextends⟩, -⟩ := lowered_of_lowerFunction hmacros htables hlower
      have hsettings : script₁.settings = script.settings := by rw [hadded, hscript]
      have hnamespace : script₁.namespaceHash = script.namespaceHash := by rw [hadded, hscript]
      have htarget : script₁.target = script.target := congrArg Settings.target hsettings
      have hpushed : script₁.functions = .ofList (functions ++ [f]) := by
        rw [hadded, hscript, hfunctions, Chain.push_ofList]
      have htables₁ : script₁.tables = lowered.tables := by rw [hadded]
      rw [← htables₁] at hindexed hextends
      obtain ⟨added, hscript', hindexed', hextends', hall⟩ :=
        ih (htarget ▸ hmacros) hindexed hpushed hrest
      refine ⟨f :: added, ?_, hindexed', hextends.trans hextends', .cons ?_ ?_⟩
      · rw [hscript', hadded, hscript]
        simp
      · exact ⟨script, lowered, rfl, rfl, htables, hlower, htables₁ ▸ hextends'⟩
      · rwa [hsettings, hnamespace] at hall

/-- A script without contents, with the namespace that a tree names if it names one. -/
def Starts (settings : Settings) (root : Node) (script : Script) : Prop :=
  (root.findChild? "namespace" = none ∧ script = Script.create settings) ∨
  ∃ n name, root.findChild? "namespace" = some n ∧ n.text = .ok name ∧
    (Script.create settings).setNamespace name = .ok script

theorem starts_of_buildScript {settings : Settings} {root : Node} {s : Script}
    (h : buildScript settings root = .ok s) :
    ∃ script, Starts settings root script ∧
      (root.children.foldlM Outline.add { script } >>= fun outline =>
        outline.functions.reverse.foldlM (addFunction (macrosOf outline.macroTable))
          outline.script) = .ok s := by
  unfold buildScript at h
  dsimp only at h
  split at h
  · cases h
  cases hnamespace : root.findChild? "namespace" with
  | none =>
      rw [hnamespace] at h
      exact ⟨Script.create settings, .inl ⟨hnamespace, rfl⟩, h⟩
  | some n =>
      rw [hnamespace] at h
      obtain ⟨name, hname, h⟩ := except_bind_eq_ok.mp h
      obtain ⟨script, hscript, h⟩ := except_bind_eq_ok.mp h
      exact ⟨script, .inr ⟨n, name, hnamespace, hname, hscript⟩, h⟩

/-- The script whose tree is built is without contents, except for its namespace. -/
theorem start_of_buildScript {settings : Settings} {root : Node} {s : Script}
    (h : buildScript settings root = .ok s) :
    ∃ script : Script, (script.settings = settings ∧ script.functions = .ofList [] ∧
        script.tables = {}) ∧
      (root.children.foldlM Outline.add { script } >>= fun outline =>
        outline.functions.reverse.foldlM (addFunction (macrosOf outline.macroTable))
          outline.script) = .ok s := by
  obtain ⟨script, ⟨-, rfl⟩ | ⟨n, name, -, -, hscript⟩, h⟩ := starts_of_buildScript h
  · exact ⟨Script.create settings, ⟨rfl, rfl, rfl⟩, h⟩
  · obtain ⟨⟨hash, hashed⟩, hhash, hscript⟩ := except_bind_eq_ok.mp hscript
    obtain ⟨⟨_, names⟩, -, hhashed⟩ := except_bind_eq_ok.mp hhash
    cases hhashed
    cases hscript
    exact ⟨_, ⟨rfl, rfl, rfl⟩, h⟩

/-- The functions of a script that was built from a tree. -/
theorem exists_of_buildScript {settings : Settings} {root : Node} {s : Script}
    (h : buildScript settings root = .ok s) :
    ∃ functions, s.functions = .ofList functions ∧ s.settings = settings ∧ s.tables.Indexed ∧
      List.Forall₂ (LoweredFrom settings s.namespaceHash (macrosOf (macroTable root)) s.tables)
        (functionNodes root) functions := by
  obtain ⟨script, ⟨hsettings, hfunctions, htables⟩, h⟩ := start_of_buildScript h
  obtain ⟨outline, houtline, h⟩ := except_bind_eq_ok.mp h
  obtain ⟨hscript, hmacros, hnodes⟩ := foldlM_add_eq_ok root.children houtline
  have hempty : outline.script.functions = .ofList [] := by rw [hscript]; exact hfunctions
  have hindexed : outline.script.tables.Indexed := by
    rw [hscript]
    exact htables ▸ Tables.indexed_empty
  obtain ⟨functions, hs, htables', -, hall⟩ := foldlM_addFunction_eq_ok _
    (matching_macrosOf outline.macroTable) hindexed hempty h
  have hsettings' : outline.script.settings = settings := by rw [hscript]; exact hsettings
  have hnamespace : s.namespaceHash = outline.script.namespaceHash := by rw [hs]
  refine ⟨functions, by rw [hs, List.nil_append], by rw [hs, hsettings'], htables', ?_⟩
  rw [hnodes, hmacros, hsettings', ← hnamespace] at hall
  exact hall

/-- Every function of a script that was built from a tree is a lowered one. -/
theorem lowered_of_buildScript {settings : Settings} {root : Node} {s : Script}
    (h : buildScript settings root = .ok s) :
    s.tables.Indexed ∧ ∀ f ∈ s.functions.toList.map (·.2),
      f.target = s.target ∧ ∃ p, Lowered s.tables f p := by
  obtain ⟨functions, hfunctions, hsettings, htables, hall⟩ := exists_of_buildScript h
  refine ⟨htables, fun f hf => ?_⟩
  rw [hfunctions, Chain.map_snd_toList_ofList] at hf
  obtain ⟨i, hi, rfl⟩ := List.getElem_of_mem hf
  obtain ⟨script, script', hsettings', -, hindexed, hlower, hextends⟩ :=
    hall.get (hall.length_eq ▸ hi) hi
  obtain ⟨-, htarget, p, hp⟩ :=
    lowered_of_lowerFunction (matching_macrosOf (macroTable root)) hindexed hlower
  refine ⟨htarget.trans ?_, p, hp.mono hextends⟩
  rw [Script.target, Script.target, hsettings, hsettings']

/-! ## A tree for instances -/

/-- A node without children. -/
def leafNode (kind text : String) : Node :=
  .mk kind (some text) none []

/-- A function with a loop that prints a text and is left in its first round. -/
def printingLoop : Node :=
  .mk "function" (some "main") none [
    .mk "block" none none [
      .mk "whileStatement" none none [
        leafNode "identifier" "level",
        .mk "block" none none [
          .mk "simpleCall" none none [
            .mk "call" (some "print") none [
              .mk "arguments" none none [leafNode "stringLiteral" "round"]]],
          leafNode "jumpStatement" "break"]]]]

/-- A script that includes another and has one function, which has a loop. -/
def loopScript : Node :=
  .mk "script" none none [leafNode "includes" "scripts/shared", printingLoop]

theorem exists_compiled_tree {settings : Settings} {root : Node} {check : Script → Bool}
    (h : (buildScript settings root).toOption.any (fun s =>
      check s && s.compile.toOption.any fun c => c.image.size < 2 ^ 32) = true) :
    ∃ s c, buildScript settings root = .ok s ∧ s.compile = .ok c ∧ c.image.size < 2 ^ 32 ∧
      check s = true := by
  cases hbuild : buildScript settings root with
  | error e => simp [hbuild, Except.toOption] at h
  | ok s =>
      simp only [hbuild, Except.toOption, Option.any_some, Bool.and_eq_true] at h
      obtain ⟨c, hcompile, hsize⟩ := Script.exists_compiled h.2
      exact ⟨s, c, rfl, hcompile, hsize, h.1⟩

/-- A check of a result tells that there is one. -/
theorem exists_of_any {α : Type} {x : Except CompileError α} {check : α → Bool}
    (h : x.toOption.any check = true) : ∃ a, x = .ok a ∧ check a = true := by
  cases x with
  | error e => cases h
  | ok a => exact ⟨a, rfl, h⟩

theorem exists_of_compileTree {settings : Settings} {root : Node} {check : CompiledScript → Bool}
    (h : (compileTree settings root).toOption.any check = true) :
    ∃ c, compileTree settings root = .ok c ∧ check c = true :=
  exists_of_any h

theorem exists_compiled_loopScript :
    ∃ s c, buildScript {} loopScript = .ok s ∧ s.compile = .ok c ∧ c.image.size < 2 ^ 32 ∧
      0 < s.tables.sizeOf .strings := by
  obtain ⟨s, c, hbuild, hcompile, hsize, hstrings⟩ := @exists_compiled_tree {} loopScript
    (fun s => 0 < s.tables.sizeOf .strings) (by decide +kernel)
  exact ⟨s, c, hbuild, hcompile, hsize, of_decide_eq_true hstrings⟩

end GscAssembler.Control
