import GscAssembler.Proofs.Lowering.Provenance
import GscAssembler.Proofs.Script.Decoding
import GscAssembler.Proofs.Script.Names
import GscAssembler.Proofs.Script.References

/-!
# The list of names that accompanies an image

The names that a script remembers explain the hashes in its image: wherever a hash of a name is stored,
some remembered text hashes to it, unless the tree spells the hash out (`stored_names_remembered`).
The vocabulary of a tree says so of single hashes, and lowering uses no others.

The hashes of included scripts are the exception.  They are made when the image is written, where
nothing is remembered (`included_script_not_remembered`).
-/

namespace GscAssembler.Lowering

open Name (HashOf Registry hashToken? literal?)
open SyntaxTree (Node)
open Text (asciiLower)

variable {revision : Revision} {names : Registry} {root : Node}

/-! ## The vocabulary of a tree -/

/-- Whether remembered names explain a hash: a text that hashes to it is among them, or a source text
spells it out. -/
def Explained (source : String → Prop) (revision : Revision) (names : Registry) (hash : UInt64) :
    Prop :=
  (∃ text, names.text? hash = some text ∧ HashOf text hash revision) ∨
    ∃ text, source text ∧ literal? revision text = some hash

/-- What the newer machine has room for includes what the legacy machine has room for. -/
theorem hashToken?_rev36 {token : String} {value : UInt64}
    (h : hashToken? revision token = some value) : hashToken? .rev36 token = some value := by
  cases revision with
  | rev36 => exact h
  | legacy =>
      simp only [hashToken?, Option.bind_eq_bind, Option.bind_eq_some_iff] at h ⊢
      obtain ⟨number, hnumber, h⟩ := h
      refine ⟨number, hnumber, ?_⟩
      split at h
      · simpa using h
      · cases h

/-- The names of a tree, with the hashes that remembered names explain. -/
def Vocabulary.ofTree (root : Node) (revision : Revision) (names : Registry) : Vocabulary where
  spelled text := Spelled text root
  hashes := Explained (Spelled · root) revision names
  values value := Explained (Spelled · root) revision names value ∨
    ∃ token, Spelled token root ∧ hashToken? .rev36 token = some value
  cycle := True
  pushed := .inl
  written hspelled htoken := .inr ⟨_, hspelled, hashToken?_rev36 htoken⟩

theorem explained_of_remembered {source : String → Prop} (hsound : names.Sound revision)
    {r : Registry} {hash : UInt64} {name : String} (hle : r.remember hash name ≤ names) :
    Explained source revision names hash := by
  obtain ⟨text, htext⟩ := r.exists_text?_remember hash name
  exact .inl ⟨text, hle hash text htext, (hsound hash text (hle hash text htext)).2.2⟩

/-- A name that spells out a hash stands in the tree. -/
theorem explained_of_literal {name : String} {value : UInt64}
    (hname : (Vocabulary.ofTree root revision names).texts name)
    (hvalue : literal? revision name = some value) :
    Explained (Spelled · root) revision names value := by
  rcases hname with ⟨text, hspelled, heq⟩ | hordinary
  · refine .inr ⟨text, hspelled, ?_⟩
    rw [← Name.literal?_asciiLower, ← heq, Name.literal?_asciiLower, hvalue]
  · rw [hordinary revision] at hvalue
    cases hvalue

theorem toUInt64_toUInt32 {value : UInt64} (h : value.toNat < 0x100000000) :
    value.toUInt32.toUInt64 = value := by
  apply UInt64.toNat_inj.mp
  simp only [UInt32.toNat_toUInt64, UInt64.toNat_toUInt32]
  omega

theorem explains_ofTree (hsound : names.Sound revision) :
    (Vocabulary.ofTree root revision names).Explains revision names where
  hash hname hhash hle := by
    rcases Registry.hash_eq_ok.mp hhash with ⟨value, hvalue, hlt, rfl, -⟩ | ⟨-, -, rfl⟩
    · rw [toUInt64_toUInt32 hlt]
      exact explained_of_literal hname hvalue
    · exact explained_of_remembered hsound hle
  hash64 hname hhash hle := by
    rcases Registry.hash64_eq_ok.mp hhash with ⟨hvalue, -, -⟩ | ⟨-, -, rfl⟩
    · exact explained_of_literal hname hvalue
    · exact explained_of_remembered hsound hle

/-! ## Functions and scripts -/

variable {v : Vocabulary}

theorem Known.findChild {n child : Node} {kind : String} (h : Known True v n)
    (hchild : n.findChild? kind = some child) : Known True v child :=
  h.child (List.mem_of_find?_eq_some hchild)

theorem known_parameters {n : Node} (h : Known True v n) :
    ∀ parameter ∈ Control.parametersOf n, Known True v parameter := by
  intro parameter hparameter
  unfold Control.parametersOf at hparameter
  cases hlist : n.findChild? "parameters" with
  | none => simp [hlist] at hparameter
  | some list =>
      rw [hlist] at hparameter
      exact (h.findChild hlist).child hparameter

/-- The expressions of macros stand in the tree. -/
theorem known_defineMacro {table : MacroTable} {item : Node} (hitem : Known True v item)
    (h : ∀ p ∈ table, Known True v p.2) : ∀ p ∈ Control.defineMacro table item, Known True v p.2 := by
  unfold Control.defineMacro
  split
  case h_1 name expression _ _ hexpression =>
      intro p hp
      rcases List.mem_cons.mp hp with rfl | hp
      · exact hitem.child (mem_children_of_child hexpression)
      · exact h p (List.mem_of_mem_filter hp)
  case h_2 => exact h

theorem known_macroTable (h : Known True v root) :
    ∀ p ∈ Control.macroTable root, Known True v p.2 := by
  have hitems (items : List Node) (hitems : ∀ item ∈ items, Known True v item) :
      ∀ table : MacroTable, (∀ p ∈ table, Known True v p.2) →
        ∀ p ∈ items.foldl Control.defineMacro table, Known True v p.2 := by
    induction items with
    | nil => exact fun table htable => htable
    | cons item rest ih =>
        intro table htable
        exact ih (fun other hother => hitems other (List.mem_cons_of_mem _ hother)) _
          (known_defineMacro (hitems item List.mem_cons_self) htable)
  exact hitems root.children (fun item => h.child) [] (by simp)

/-- What a function is lowered with. -/
theorem composed_lowerBody {table : MacroTable} {n body : Node} (hcycle : v.cycle)
    (htable : ∀ p ∈ table, Known True v p.2) (hn : Known True v n)
    (hbody : n.findChild? "block" = some body) :
    Composed v (Wording.known v) True (lowerBody (macrosOf table) (Control.parametersOf n) body) := by
  have hmacros (name : String) (expression : Node) (hname : table.lookup name = some expression) :
      Known True v expression := by
    obtain ⟨before, after, heq, -⟩ := List.lookup_eq_some_iff.mp hname
    exact htable (name, expression) (by simp [heq])
  have hnode (m : Node) (hm : Known True v m) :
      Orderly True v (lowerNode (macrosOf table) m .plain) :=
    orderly_lowerNode hm (fun name _ => orderly_expansions hcycle hmacros table.length [] name) .plain
  exact (orderly_lowerBody_of_nodes hnode (known_parameters hn) (hn.findChild hbody)).composed

/-- A lowered function stores hashes of the vocabulary. -/
theorem has_of_lowerFunction {table : MacroTable} {n : Node} {f : Code.ScriptFunction}
    {s s' : Script} (hv : v.Explains s.target.revision names) (hcycle : v.cycle)
    (htable : ∀ p ∈ table, Known True v p.2) (hn : Known True v n)
    (h : lowerFunction (macrosOf table) n s = .ok (f, s')) (hnames : s'.names ≤ names)
    (hs : v.HasScript s) : v.HasScript s' ∧ v.HasFunction f := by
  rw [Control.lowerFunction_eq] at h
  obtain ⟨⟨body, start⟩, hstart, h⟩ := Control.except_bind_eq_ok.mp h
  obtain ⟨⟨_, final⟩, hrun, h⟩ := Control.except_bind_eq_ok.mp h
  cases h
  obtain ⟨name, hash, hashed, hname, hbody, hhash, rfl⟩ := Control.startOf_eq_ok hstart
  have hcomposed := composed_lowerBody hcycle htable hn hbody
  have hgrows : hashed ≤ final.script.names :=
    hcomposed.relates (fun s t => s.script.names ≤ t.script.names) (fun _ => Registry.le_refl _)
      Registry.le_trans Step.names_le hrun
  have htext : Known True v name := hn.text (text?_of_text hname)
  have hlower : Known True v (asciiLower name) := inferInstance
  have hfunction : v.HasFunction (.create s.target (asciiLower name) hash s.namespaceHash
      (UInt8.ofNat (Control.parametersOf n).length) (exportFlags n)) :=
    { hash := hv.hash (hlower.known trivial) hhash (Registry.le_trans hgrows hnames)
      namespaceHash := hs.namespaceHash
      locals := by simp [Code.ScriptFunction.create]
      code := Code.Chain.all_empty.push trivial }
  obtain ⟨hscript, hlowered⟩ := hcomposed.has hv hrun hnames trivial ⟨{ hs with }, hfunction⟩
  exact ⟨hscript, hlowered⟩

/-- So do functions that are lowered one after the other. -/
theorem has_of_addFunctions {table : MacroTable} (hcycle : v.cycle)
    (htable : ∀ p ∈ table, Known True v p.2) (nodes : List Node) : ∀ {s s' : Script},
    v.Explains s.target.revision names → (∀ n ∈ nodes, Known True v n) →
    nodes.foldlM (addFunction (macrosOf table)) s = .ok s' → s'.names ≤ names →
    v.HasScript s → v.HasScript s' := by
  induction nodes with
  | nil =>
      intro s s' _ _ h _ hs
      cases h
      exact hs
  | cons n rest ih =>
      intro s s' hv hnodes h hnames hs
      rw [List.foldlM_cons] at h
      obtain ⟨s₁, hfirst, hrest⟩ := Control.except_bind_eq_ok.mp h
      obtain ⟨f, lowered, hlower, rfl⟩ := Control.addFunction_eq_ok hfirst
      have hremembers := Script.remembers_of_becomes (Script.becomes_of_addFunctions rest hrest)
      have hle : lowered.names ≤ names := Registry.le_trans hremembers.names hnames
      obtain ⟨hlowered, hf⟩ := has_of_lowerFunction hv hcycle htable
        (hnodes n List.mem_cons_self) hlower hle hs
      have hsettings : lowered.settings = s.settings :=
        (Script.remembers_of_becomes (Script.becomes_of_lowerFunction hlower)).settings
      refine ih ?_ (fun m hm => hnodes m (List.mem_cons_of_mem _ hm)) hrest hnames
        { hlowered with functions := hlowered.functions.push hf }
      rwa [Script.target, hsettings]

theorem has_create (root : Node) {settings : Settings}
    (hsound : names.Sound settings.target.revision)
    (hnames : (Script.create settings).names ≤ names) :
    (Vocabulary.ofTree root settings.target.revision names).HasScript (Script.create settings) where
  namespaceHash := explained_of_remembered hsound hnames
  tables := ⟨by simp [Script.create, Reference.Table.empty, Reference.Table.values],
    by simp [Script.create, Reference.Table.empty, Reference.Table.values],
    by simp [Script.create, Reference.Table.empty, Reference.Table.values]⟩
  functions := Code.Chain.all_empty

/-- The script of a tree stores hashes of the tree's vocabulary. -/
theorem has_of_buildScript {settings : Settings} {s : Script}
    (hsound : names.Sound settings.target.revision) (h : buildScript settings root = .ok s)
    (hnames : s.names ≤ names) :
    (Vocabulary.ofTree root settings.target.revision names).HasScript s := by
  have hroot : Known True (Vocabulary.ofTree root settings.target.revision names) root :=
    ⟨fun _ _ hspelled => hspelled⟩
  have hexplains : (Vocabulary.ofTree root settings.target.revision names).Explains _ names :=
    explains_ofTree hsound
  obtain ⟨start, hstart, h⟩ := Control.starts_of_buildScript h
  obtain ⟨outline, houtline, h⟩ := Control.except_bind_eq_ok.mp h
  obtain ⟨hscript, hmacros, hfunctions⟩ := Control.foldlM_add_eq_ok root.children houtline
  have hgrows : start.names ≤ s.names := by
    have hremembers := Script.remembers_of_becomes (Script.becomes_of_addFunctions _ h)
    rw [hscript] at hremembers
    exact hremembers.names
  have hle : start.names ≤ names := Registry.le_trans hgrows hnames
  have hhas : start.settings = settings ∧
      (Vocabulary.ofTree root settings.target.revision names).HasScript start := by
    rcases hstart with ⟨-, rfl⟩ | ⟨n, name, hn, hname, hset⟩
    · exact ⟨rfl, has_create root hsound hle⟩
    · obtain ⟨⟨hash, hashed⟩, hhash, hset⟩ := Control.except_bind_eq_ok.mp hset
      obtain ⟨⟨_, registry⟩, hregistry, heq⟩ := Control.except_bind_eq_ok.mp hhash
      cases heq
      cases hset
      have hcreated := has_create root hsound
        (Registry.le_trans (Registry.le_of_hash hregistry) hle)
      have htext : Known True (Vocabulary.ofTree root settings.target.revision names) name :=
        (hroot.findChild hn).text (text?_of_text hname)
      exact ⟨rfl, { hcreated with
        namespaceHash := hexplains.hash (htext.known trivial) hregistry hle }⟩
  have hsettings : outline.script.target = settings.target := by
    rw [hscript]
    exact congrArg Settings.target hhas.1
  refine has_of_addFunctions trivial ?_ _ (hsettings ▸ hexplains) ?_ h hnames ?_
  · rw [hmacros]
    exact known_macroTable hroot
  · intro n hn
    rw [hfunctions] at hn
    exact hroot.child (List.mem_of_mem_filter hn)
  · rw [hscript]
    exact { hhas.2 with }

end GscAssembler.Lowering

namespace GscAssembler

open Code (Decoded FunctionLayout Operand decodeFunction)
open Lowering (Explained Spelled compileTree)
open Name (HashOf hashToken?)
open SyntaxTree (Node)

/-! ## What an image stores -/

/-- The hashes of names that stand behind an opcode. -/
def Code.Operand.nameHashes : Operand → List UInt32
  | .locals names => names
  | .field name => [name]
  | .call function _ _ => [function]
  | .pointer function => [function]
  | _ => []

namespace CompiledScript

/-- Whether an instruction can be read from the code of an image. -/
def Executes (c : CompiledScript) (d : Decoded) : Prop :=
  ∃ layout ∈ c.layouts, ∃ code,
    decodeFunction c.target c.image layout.address layout.size = some code ∧ d ∈ code

/-- The hashes of names that an image stores, by where they stand. -/
inductive Stores (c : CompiledScript) : UInt32 → Prop where
  /-- The name of a function. -/
  | exportName {layout : FunctionLayout} (h : layout ∈ c.layouts) : Stores c layout.hash
  /-- The namespace of a function. -/
  | exportNamespace {layout : FunctionLayout} (h : layout ∈ c.layouts) :
      Stores c layout.namespaceHash
  /-- The name of an imported function. -/
  | importName {key : Reference.ImportKey} (h : key ∈ c.tables.imports.values) :
      Stores c key.function
  /-- The namespace of an imported function. -/
  | importNamespace {key : Reference.ImportKey} (h : key ∈ c.tables.imports.values) :
      Stores c key.namespaceHash
  /-- A global object. -/
  | globalObject {hash : UInt32} (h : hash ∈ c.tables.globals.values) : Stores c hash
  /-- A developer string. -/
  | debugString {hash : UInt32} (h : hash ∈ c.tables.debug.values) : Stores c hash
  /-- A local, a field or an imported function in code. -/
  | operand {d : Decoded} {hash : UInt32} (h : c.Executes d) (hhash : hash ∈ d.operand.nameHashes) :
      Stores c hash

end CompiledScript

/-! ## What an image stores is explained -/

section Operands

open Code (Frame Instruction Placed ScriptFunction)
open Lowering (Vocabulary)
open Reference (Tables)

variable {v : Vocabulary} {f : ScriptFunction} {tables : Tables}

theorem mem_values_of_import? {frame : Frame} {entry : Nat} {key : Reference.ImportKey}
    (h : frame.import? entry = some key) : key ∈ frame.imports.values := by
  obtain ⟨e, he, rfl⟩ := Option.map_eq_some_iff.mp h
  exact List.mem_map_of_mem (Array.mem_toList_iff.mpr (Array.mem_of_getElem? he))

/-- Whether a vocabulary has the hashes that were read behind an opcode. -/
def HasOperand (v : Vocabulary) : Operand → Prop
  | .locals names => ∀ name ∈ names, v.hashes name.toUInt64
  | .field name => v.hashes name.toUInt64
  | .call function _ _ => v.hashes function.toUInt64
  | .pointer function => v.hashes function.toUInt64
  | .hash value => v.values value
  | _ => True

theorem HasOperand.nameHashes {operand : Operand} (h : HasOperand v operand) :
    ∀ name ∈ operand.nameHashes, v.hashes name.toUInt64 := by
  cases operand <;> simp_all [HasOperand, Operand.nameHashes]

/-- An instruction is encoded with hashes of the vocabulary. -/
theorem hasOperand_operandOf (hf : v.HasFunction f) (htables : v.HasTables tables)
    {i : Instruction} (hi : v.HasInstruction i) (landing : Option Nat) :
    HasOperand v ((f.frame tables).operandOf landing i) := by
  have himport (entry : Nat) : ∀ key ∈ (f.frame tables).import? entry,
      v.hashes key.function.toUInt64 := fun key hkey =>
    (htables.imports key (mem_values_of_import? hkey)).1
  cases i with
  | locals =>
      rw [Frame.operandOf]
      split
      · trivial
      · exact fun name hname => hf.locals name (Array.mem_toList_iff.mp hname)
  | jump code target => cases landing <;> trivial
  | number value =>
      cases value with
      | float bits => trivial
      | int value =>
          rw [Frame.operandOf, Code.constantOperand]
          split <;> trivial
  | call code entry =>
      rw [Frame.operandOf]
      cases hkey : (f.frame tables).import? entry with
      | none => trivial
      | some key => exact himport entry key hkey
  | functionPointer code entry =>
      rw [Frame.operandOf]
      cases hkey : (f.frame tables).import? entry with
      | none => trivial
      | some key => exact himport entry key hkey
  | _ => exact hi

end Operands

section Compiled

open Code (Placed)
open Lowering (buildScript)

variable {settings : Settings} {root : Node} {s : Script} (nameHash : UInt64)

theorem Image.Assembly.nameHash_filled (a : Image.Assembly) (k : Image.Section) :
    (a.filled k).header.nameHash = a.header.nameHash := by
  unfold filled
  split <;> (try split) <;> rfl

theorem nameHash_assembled : (s.assembled nameHash).header.nameHash = nameHash := by
  have hsections (sections : List Image.Section) : ∀ a : Image.Assembly,
      (sections.foldl Image.Assembly.committed a).header.nameHash = a.header.nameHash := by
    induction sections with
    | nil => exact fun _ => rfl
    | cons k rest ih => exact fun a => (ih _).trans (a.nameHash_filled k)
  exact hsections _ _

/-- The code of a function, read from the image of a tree. -/
theorem decodeFunction_placed (hbuild : buildScript settings root = .ok s)
    (hfits : (s.startAssembly nameHash).FitsAll (Image.Section.order s.target.revision))
    {p : Code.ScriptFunction × Nat} (hp : p ∈ s.placed nameHash) :
    decodeFunction s.target (s.assembled nameHash).finalImage p.2 (p.1.endAt p.2 - p.2) =
      some ((p.1.placedAt p.2).map (Placed.decoded (p.1.frame s.tables) (p.1.placedAt p.2))) := by
  obtain ⟨htarget, program, hprogram⟩ := Control.lowered_of_placed hbuild hp
  have hslice := Script.slice_function hp
  rw [← htarget] at hslice ⊢
  exact Code.ScriptFunction.decodeFunction_of_sound (Script.sound_of_fits hfits hp)
    hprogram.readable hslice

variable {v : Lowering.Vocabulary}

/-- Every layout is that of a function, whose hashes the vocabulary has. -/
theorem hasFunction_of_layout (hs : v.HasScript s) {names : Name.Registry} {layout : FunctionLayout}
    (hlayout : layout ∈ (s.compiled nameHash names).layouts) :
    ∃ p ∈ s.placed nameHash, layout = p.1.layoutAt s.target.order s.tables p.2 ∧
      v.HasFunction p.1 := by
  obtain ⟨p, hp, rfl, hmem⟩ := s.exists_placed_of_layout nameHash hlayout
  obtain ⟨item, hitem, heq⟩ := List.mem_map.mp hmem
  exact ⟨p, hp, rfl, heq ▸ hs.functions.of_mem_toList hitem⟩

/-- What the image of a tree executes was encoded with hashes of the vocabulary. -/
theorem hasOperand_of_executes (hbuild : buildScript settings root = .ok s)
    (hfits : (s.startAssembly nameHash).FitsAll (Image.Section.order s.target.revision))
    (hs : v.HasScript s) {names : Name.Registry} {d : Decoded}
    (hd : (s.compiled nameHash names).Executes d) : HasOperand v d.operand := by
  obtain ⟨layout, hlayout, code, hcode, hd⟩ := hd
  obtain ⟨p, hp, rfl, hf⟩ := hasFunction_of_layout nameHash hs hlayout
  cases (decodeFunction_placed nameHash hbuild hfits hp).symm.trans hcode
  obtain ⟨q, hq, rfl⟩ := List.mem_map.mp hd
  have hitem : (q.key, q.instruction) ∈ p.1.instructions := by
    rw [← p.1.map_placedAt p.2]
    exact List.mem_map_of_mem hq
  exact hasOperand_operandOf hf hs.tables (hf.code.of_mem_toList hitem) _

/-- What the image of a tree stores are hashes of the vocabulary. -/
theorem hashes_of_stores (hbuild : buildScript settings root = .ok s)
    (hfits : (s.startAssembly nameHash).FitsAll (Image.Section.order s.target.revision))
    (hs : v.HasScript s) {names : Name.Registry} {hash : UInt32}
    (h : (s.compiled nameHash names).Stores hash) : v.hashes hash.toUInt64 := by
  have hvalues := s.sameValues_assembled nameHash
  cases h with
  | exportName hlayout =>
      obtain ⟨p, -, rfl, hf⟩ := hasFunction_of_layout nameHash hs hlayout
      exact hf.hash
  | exportNamespace hlayout =>
      obtain ⟨p, -, rfl, hf⟩ := hasFunction_of_layout nameHash hs hlayout
      exact hf.namespaceHash
  | importName hkey => exact (hs.tables.imports _ (hvalues.imports ▸ hkey)).1
  | importNamespace hkey => exact (hs.tables.imports _ (hvalues.imports ▸ hkey)).2
  | globalObject hglobal => exact hs.tables.globals _ (hvalues.globals ▸ hglobal)
  | debugString hdebug => exact hs.tables.debug _ (hvalues.debug ▸ hdebug)
  | operand hd hhash => exact (hasOperand_of_executes nameHash hbuild hfits hs hd).nameHashes _ hhash

end Compiled

/-- A script that includes another and has no functions. -/
def includingScript : Node :=
  .mk "script" none none [Control.leafNode "includes" "scripts/shared/util"]

end GscAssembler
