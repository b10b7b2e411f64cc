import GscAssembler.Proofs.Code.Relocation
import GscAssembler.Proofs.Control.Alike
import GscAssembler.Proofs.Script.References

/-!
# Functions do not depend on their surroundings

The bytes of a function are the same in every image that has it, whatever other functions, includes
and names the image has.  Three facts make it so.  Lowering gives the same instructions, but for the
positions of what they use in the tables (`same_of_lowerFunction`).  Such instructions have the same
bytes, since only the values of what they use are encoded (`ScriptFunction.Same.bodyAt_eq`).  And the
bytes of a function do not depend on where it stands (`ScriptFunction.bodyAt_shift`).
-/

namespace GscAssembler.Code

open Bytes (ByteOrder)
open Reference (TableReference Tables)

/-! ## Instructions that use the same values -/

/-- Whether two references are made from the same address and use the same value. -/
structure SameReference (t u : Tables) (r q : TableReference) : Prop where
  table : r.table = q.table
  address : r.address = q.address
  value : t.SameValue u r.table r.entry q.entry

namespace Instruction.Same

variable {t u : Tables} {i j : Instruction}

theorem finish_eq (h : Same t u i j) (target : Target) (localCount address : Nat) :
    i.finish target localCount address = j.finish target localCount address := by
  cases h <;> rfl

theorem opcode_eq (h : Same t u i j) (target : Target) (localCount : Nat) :
    i.opcode target localCount = j.opcode target localCount := by
  cases h <;> rfl

theorem jump_eq (h : Same t u i j) {code : Opcode} {target : Option Key} :
    i = .jump code target ↔ j = .jump code target := by
  cases h <;> simp

/-- Only the values of what instructions use are encoded. -/
theorem code_eq (h : Same t u i j) {f g : Frame} (htarget : f.target = g.target)
    (hlocals : f.locals = g.locals) (ht : f.imports = t.imports) (hu : g.imports = u.imports)
    (address : Nat) : f.code address i = g.code address j := by
  have himport : ∀ {entry other}, t.SameValue u .imports entry other →
      f.importAt entry = g.importAt other := by
    rintro entry other ⟨value, hentry, hother⟩
    obtain ⟨key, hkey, rfl⟩ := Option.map_eq_some_iff.mp hentry
    obtain ⟨key', hkey', heq⟩ := Option.map_eq_some_iff.mp hother
    cases heq
    rw [Frame.importAt, Frame.importAt, ← Reference.Table.getElem?_values,
      ← Reference.Table.getElem?_values, ht, hu, hkey, hkey']
  cases h with
  | plain h =>
      cases i <;> first
        | (cases h; done)
        | simp only [Frame.code, Frame.operand, Frame.constantBytes, htarget, hlocals]
  | call h =>
      simp only [Frame.code, Frame.operand, Frame.callCounts, himport h, htarget, hlocals]
      rfl
  | functionPointer h =>
      simp only [Frame.code, Frame.operand, himport h, htarget, hlocals]
      rfl
  | _ =>
      simp only [Frame.code, Frame.operand, htarget, hlocals]
      rfl

theorem reference (h : Same t u i j) (target : Target) (address : Nat) :
    Option.Rel (SameReference t u) (i.reference target address) (j.reference target address) := by
  cases h with
  | plain h =>
      rw [Instruction.reference_eq, h]
      exact .none
  | string h | debugString h | call h | functionPointer h | global h => exact .some ⟨rfl, rfl, h⟩

end Instruction.Same

/-- Whether two placed instructions stand at the same place and use the same values. -/
structure Placed.Same (t u : Tables) (p q : Placed) : Prop where
  key : p.key = q.key
  instruction : Instruction.Same t u p.instruction q.instruction
  opcode : p.opcode = q.opcode
  address : p.address = q.address
  size : p.size = q.size

theorem Placed.Same.finish_eq {t u : Tables} {p q : Placed} (h : p.Same t u q) :
    p.finish = q.finish := by
  rw [finish, finish, h.address, h.size]

section Layout

variable {t u : Tables}

/-- Instructions with the same keys that use the same values. -/
def SameItem (t u : Tables) (a b : Key × Instruction) : Prop :=
  a.1 = b.1 ∧ Instruction.Same t u a.2 b.2

theorem forall₂_placedFrom (target : Target) (localCount : Nat) {items others : List (Key × Instruction)}
    (h : List.Forall₂ (SameItem t u) items others) :
    ∀ address, List.Forall₂ (Placed.Same t u) (placedFrom target localCount address items)
      (placedFrom target localCount address others) := by
  induction h with
  | nil => intro address; exact .nil
  | cons hitem _ ih =>
      intro address
      have hfinish := hitem.2.finish_eq target localCount address
      simp only [placedFrom, hfinish]
      exact .cons ⟨hitem.1, hitem.2, hitem.2.opcode_eq target localCount, rfl, rfl⟩ (ih _)

theorem codeEnd_eq (target : Target) (localCount : Nat) {items others : List (Key × Instruction)}
    (h : List.Forall₂ (SameItem t u) items others) :
    ∀ address, codeEnd target localCount address items = codeEnd target localCount address others := by
  induction h with
  | nil => intro address; rfl
  | cons hitem _ ih =>
      intro address
      simp only [codeEnd, List.foldl_cons, hitem.2.finish_eq]
      exact ih _

/-- The landing of a jump only depends on the keys and places of instructions. -/
theorem finish_landingOf_eq {placed others : List Placed}
    (h : List.Forall₂ (Placed.Same t u) placed others) (target : Option Key) :
    (landingOf placed target).map (·.finish) = (landingOf others target).map (·.finish) := by
  cases target with
  | none => rfl
  | some key =>
      simp only [landingOf, Option.bind_some]
      induction h with
      | nil => rfl
      | cons hfirst _ ih =>
          rw [List.find?_cons, List.find?_cons, hfirst.key]
          split
          · exact congrArg some hfirst.finish_eq
          · exact ih

theorem jumpOf_eq {placed others : List Placed} (h : List.Forall₂ (Placed.Same t u) placed others)
    {p q : Placed} (hpq : p.Same t u q) : jumpOf placed p = jumpOf others q := by
  have hjump : ∀ {code target}, p.instruction = .jump code target ↔ q.instruction = .jump code target :=
    hpq.instruction.jump_eq
  unfold jumpOf
  split
  case h_1 code target hp =>
    have hlanding := congrArg (Option.map (PlacedJump.mk code q.address q.finish))
      (finish_landingOf_eq h target)
    rw [Option.map_map, Option.map_map] at hlanding
    rw [hjump.mp hp, hpq.address, hpq.finish_eq]
    exact hlanding
  case h_2 hp =>
    split
    case h_1 code target hq => exact absurd (hjump.mpr hq) (hp code target)
    case h_2 => rfl

end Layout

namespace ScriptFunction

/-- Whether two functions are equal, except that what they use may have different positions, each in
its own tables. -/
structure Same (t u : Tables) (f g : ScriptFunction) : Prop where
  fields : g = { f with chain := g.chain }
  items : List.Forall₂ (SameItem t u) f.instructions g.instructions

variable {t u : Tables} {f g : ScriptFunction}

theorem Same.mono {t' u' : Tables} (ht : t.Extends t') (hu : u.Extends u') (h : f.Same t u g) :
    f.Same t' u' g :=
  ⟨h.fields, h.items.imp fun _ _ hitem => ⟨hitem.1, hitem.2.mono ht hu⟩⟩

theorem Same.target_eq (h : f.Same t u g) : f.target = g.target := by
  rw [h.fields]

theorem Same.locals_eq (h : f.Same t u g) : f.locals = g.locals := by
  rw [h.fields]

theorem Same.forall₂_placedAt (h : f.Same t u g) (start : Nat) :
    List.Forall₂ (Placed.Same t u) (f.placedAt start) (g.placedAt start) := by
  rw [placedAt, placedAt, h.target_eq, h.locals_eq]
  exact forall₂_placedFrom _ _ h.items _

theorem Same.endAt_eq (h : f.Same t u g) (start : Nat) : f.endAt start = g.endAt start := by
  rw [endAt, endAt, h.target_eq, h.locals_eq]
  exact codeEnd_eq _ _ h.items _

theorem Same.jumpsAt_eq (h : f.Same t u g) (start : Nat) : f.jumpsAt start = g.jumpsAt start := by
  have hplaced := h.forall₂_placedAt start
  rw [jumpsAt, jumpsAt]
  refine List.forall₂_eq_eq_eq ▸ List.rel_filterMap (fun p q hpq => ?_) hplaced
  rw [jumpOf_eq hplaced hpq]
  cases jumpOf (g.placedAt start) q with
  | none => exact .none
  | some j => exact .some rfl

theorem Same.referencesOf (h : f.Same t u g) (start : Nat) :
    List.Forall₂ (SameReference t u) (referencesOf f.target (f.placedAt start))
      (referencesOf g.target (g.placedAt start)) := by
  refine List.rel_filterMap (fun p q hpq => ?_) (h.forall₂_placedAt start)
  rw [h.target_eq, hpq.address]
  exact hpq.instruction.reference _ _

theorem Same.bodyAt_eq (h : f.Same t u g) (order : ByteOrder) (start : Nat) :
    f.bodyAt order t start = g.bodyAt order u start := by
  have hcode : (f.frame t).codeOf (f.placedAt start) = (g.frame u).codeOf (g.placedAt start) := by
    refine List.forall₂_eq_eq_eq ▸ List.rel_flatMap (h.forall₂_placedAt start) fun p q hpq => ?_
    rw [List.forall₂_eq_eq_eq, hpq.address]
    exact hpq.instruction.code_eq h.target_eq (congrArg Array.toList h.locals_eq) rfl rfl _
  rw [bodyAt, bodyAt, h.jumpsAt_eq, hcode, h.target_eq]

end ScriptFunction

/-! ## Layouts of the same function -/

/-- How far an address is from the start of a function. -/
def FunctionLayout.offset (l : FunctionLayout) (address : Nat) : Int :=
  address - l.address

/-- Whether two layouts are equal when addresses are taken relative to the starts of the functions,
and entries by their values, each in its own tables. -/
structure FunctionLayout.Same (t u : Tables) (a b : FunctionLayout) : Prop where
  name : a.name = b.name
  hash : a.hash = b.hash
  namespaceHash : a.namespaceHash = b.namespaceHash
  params : a.params = b.params
  flags : a.flags = b.flags
  size : a.size = b.size
  crc : a.crc = b.crc
  instructions : List.Forall₂ (fun p q => p.opcode = q.opcode ∧ p.size = q.size ∧
    a.offset p.address = b.offset q.address) a.instructions b.instructions
  jumps : List.Forall₂ (fun j k => j.opcode = k.opcode ∧ a.offset j.address = b.offset k.address ∧
    a.offset j.origin = b.offset k.origin ∧ a.offset j.landing = b.offset k.landing) a.jumps b.jumps
  references : List.Forall₂ (fun r q => r.table = q.table ∧
    a.offset r.address = b.offset q.address ∧ t.SameValue u r.table r.entry q.entry)
    a.references b.references

namespace ScriptFunction

variable {t u : Tables} {f g : ScriptFunction} {start other : Nat}

theorem exists_shift (h : start % 16 = 8) : ∃ shift, start = 8 + shift ∧ 8 ∣ shift :=
  ⟨start - 8, by omega, by omega⟩

theorem Same.bytes_eq (h : f.Same t u g) (order : ByteOrder) (hstart : start % 16 = 8)
    (hother : other % 16 = 8) :
    (f.bodyAt order t start).bytes = (g.bodyAt order u other).bytes := by
  obtain ⟨shift, rfl, hshift⟩ := exists_shift hstart
  obtain ⟨shift', rfl, hshift'⟩ := exists_shift hother
  rw [bodyAt_shift hshift, bodyAt_shift hshift', h.bodyAt_eq]

theorem Same.layouts (h : f.Same t u g) (order : ByteOrder) (hstart : start % 16 = 8)
    (hother : other % 16 = 8) :
    (f.layoutAt order t start).Same t u (g.layoutAt order u other) where
  name := by rw [h.fields]; rfl
  hash := by rw [h.fields]; rfl
  namespaceHash := by rw [h.fields]; rfl
  params := by rw [h.fields]; rfl
  flags := by rw [h.fields]; rfl
  crc := by simp only [layoutAt, h.bytes_eq order hstart hother]
  size := by
    obtain ⟨shift, rfl, hshift⟩ := exists_shift hstart
    obtain ⟨shift', rfl, hshift'⟩ := exists_shift hother
    simp only [layoutAt, endAt_shift hshift, endAt_shift hshift', h.endAt_eq, Nat.add_sub_add_right]
  instructions := by
    obtain ⟨shift, rfl, hshift⟩ := exists_shift hstart
    obtain ⟨shift', rfl, hshift'⟩ := exists_shift hother
    simp only [layoutAt, placedAt_shift hshift, placedAt_shift hshift',
      List.forall₂_map_left_iff, List.forall₂_map_right_iff]
    refine (h.forall₂_placedAt 8).imp fun p q hpq => ⟨hpq.opcode, hpq.size, ?_⟩
    simp only [FunctionLayout.offset, Placed.moved, hpq.address]
    omega
  jumps := by
    obtain ⟨shift, rfl, hshift⟩ := exists_shift hstart
    obtain ⟨shift', rfl, hshift'⟩ := exists_shift hother
    simp only [layoutAt, jumpsAt_shift hshift, jumpsAt_shift hshift', h.jumpsAt_eq,
      List.forall₂_map_left_iff, List.forall₂_map_right_iff, List.forall₂_same]
    intro j _
    refine ⟨rfl, ?_, ?_, ?_⟩
    all_goals
      simp only [FunctionLayout.offset, PlacedJump.moved]
      omega
  references := by
    obtain ⟨shift, rfl, hshift⟩ := exists_shift hstart
    obtain ⟨shift', rfl, hshift'⟩ := exists_shift hother
    simp only [layoutAt, referencesOf_shift hshift, referencesOf_shift hshift',
      List.forall₂_map_left_iff, List.forall₂_map_right_iff]
    refine (h.referencesOf 8).imp fun r q hrq => ⟨hrq.table, ?_, hrq.value⟩
    simp only [FunctionLayout.offset, movedReference, hrq.address]
    omega

end ScriptFunction

end GscAssembler.Code

namespace GscAssembler.Lowering

/-! ## Macros -/

/-- The names that a table of macros defines. -/
def MacroTable.names (table : MacroTable) : List String :=
  table.map (·.1)

theorem MacroTable.mem_names_iff (table : MacroTable) (name : String) :
    name ∈ table.names ↔ (table.lookup name).isSome := by
  simp [names]

theorem MacroTable.nodup_names_define {table : MacroTable} (h : table.names.Nodup) (name : String)
    (expression : SyntaxTree.Node) : (table.define name expression).names.Nodup := by
  have hrest : (MacroTable.names (table.filter (·.1 ≠ name))).Nodup :=
    h.sublist (List.filter_sublist.map _)
  refine List.nodup_cons.mpr ⟨?_, hrest⟩
  simp [List.mem_filter]

theorem expansions_congr {table table' : MacroTable} (h : ∀ name, table.lookup name = table'.lookup name)
    (depth : Nat) : ∀ expanding, expansions table depth expanding = expansions table' depth expanding := by
  induction depth with
  | zero => intro expanding; simp only [expansions, h]
  | succ depth ih => intro expanding; simp only [expansions, h, ih]

/-- Tables that define the same macros, in whatever order, give the same macros. -/
theorem macrosOf_congr {table table' : MacroTable} (hnames : table.names.Nodup)
    (hnames' : table'.names.Nodup) (h : ∀ name, table.lookup name = table'.lookup name) :
    macrosOf table = macrosOf table' := by
  have hperm : table.names.Perm table'.names :=
    (List.perm_ext_iff_of_nodup hnames hnames').mpr fun name => by
      rw [table.mem_names_iff, table'.mem_names_iff, h]
  have hlength : table.length = table'.length := by
    simpa only [MacroTable.names, List.length_map] using hperm.length_eq
  rw [macrosOf, macrosOf, hlength]
  exact expansions_congr h _ _

end GscAssembler.Lowering

namespace GscAssembler.Control

open Code (Chain Instruction ScriptFunction)
open Lowering
open Reference (Tables)
open SyntaxTree (Node)

theorem nodup_names_macroTable (root : Node) : (macroTable root).names.Nodup := by
  suffices h : ∀ (items : List Node) (table : MacroTable), table.names.Nodup →
      (items.foldl defineMacro table).names.Nodup from h root.children [] List.nodup_nil
  intro items
  induction items with
  | nil => intro table htable; exact htable
  | cons item rest ih =>
      intro table htable
      refine ih _ ?_
      unfold defineMacro
      split
      · exact MacroTable.nodup_names_define htable _ _
      · exact htable

/-! ## Lowering a function twice -/

theorem forall₂_toList_ofList {α : Type} {R : α → α → Prop} {items others : List α}
    (h : List.Forall₂ R items others) :
    List.Forall₂ (fun a b => a.1 = b.1 ∧ R a.2 b.2) (Chain.ofList items).toList
      (Chain.ofList others).toList := by
  rw [Chain.toList_ofList, Chain.toList_ofList]
  refine List.forall₂_iff_get.mpr ⟨by simp [h.length_eq], fun i hi hi' => ?_⟩
  simp only [List.length_mapIdx] at hi hi'
  simpa using h.get hi hi'

/-- The function of a node is lowered to the same, whatever script it is part of. -/
theorem same_of_lowerFunction {macros : Macros} {macros' : SketchedMacros} {n : Node}
    {script script' other other' : Script} {f g : ScriptFunction}
    (hmacros : MatchingMacros script.target macros macros') (htables : script.tables.Indexed)
    (htables' : other.tables.Indexed) (htarget : script.target = other.target)
    (hflags : script.settings.flagDeveloperCalls = other.settings.flagDeveloperCalls)
    (hnamespace : script.namespaceHash = other.namespaceHash)
    (h : lowerFunction macros n script = .ok (f, script'))
    (h' : lowerFunction macros n other = .ok (g, other')) :
    f.Same script'.tables other'.tables g := by
  obtain ⟨body, s, p, s₁, hstart, hrun, -, rfl, rfl⟩ := exists_of_lowerFunction hmacros h
  obtain ⟨body', t, q, t₁, hstart', hrun', -, rfl, rfl⟩ :=
    exists_of_lowerFunction (htarget ▸ hmacros) h'
  have hfirst := consistent_startOf htables hstart
  have hsecond := htarget ▸ consistent_startOf htables' hstart'
  have halike : body = body' ∧ Alike s t := by
    obtain ⟨name, hash, names, hname, hbody, hhash, rfl⟩ := startOf_eq_ok hstart
    obtain ⟨name', hash', names', hname', hbody', hhash', rfl⟩ := startOf_eq_ok hstart'
    rw [hname] at hname'
    cases hname'
    rw [htarget] at hhash
    refine ⟨Option.some.inj (hbody.symm.trans hbody'), htarget, hflags, hnamespace, ?_⟩
    simp only [htarget, hnamespace, hash_eq_hash hhash hhash']
  obtain ⟨rfl, halike⟩ := halike
  have hfollows := @follows_lowerBody _ [] _ _ hmacros (parametersOf n) body
  obtain ⟨-, htwins, -, hsame⟩ :=
    mirrored_of_follows hfollows ⟨halike, hfirst, hsecond, by simp⟩ hrun hrun'
  refine ⟨by simp only [htwins.alike.function], ?_⟩
  have hcode := hsame.code (fun _ _ => .plain rfl) .unknown 1
  exact forall₂_toList_ofList (.cons (.plain rfl) hcode)

/-- The function of a node has the node's name. -/
theorem name_of_lowerFunction {macros : Macros} {macros' : SketchedMacros} {n : Node}
    {script script' : Script} {f : ScriptFunction}
    (hmacros : MatchingMacros script.target macros macros') (htables : script.tables.Indexed)
    (h : lowerFunction macros n script = .ok (f, script')) :
    ∃ text, n.text = .ok text ∧ f.name = Text.asciiLower text := by
  obtain ⟨body, s, p, s₁, hstart, hrun, -, rfl, rfl⟩ := exists_of_lowerFunction hmacros h
  have hfollows := @follows_lowerBody _ [] _ _ hmacros (parametersOf n) body
  obtain ⟨hleaves, -⟩ := resolves_of_follows hfollows (consistent_startOf htables hstart)
    (by simp) hrun
  obtain ⟨name, hash, names, hname, -, -, rfl⟩ := startOf_eq_ok hstart
  exact ⟨name, hname, by rw [hleaves.extended.function]; rfl⟩

end GscAssembler.Control

namespace GscAssembler

open Bytes (slice)
open Code (FunctionLayout ScriptFunction)
open Control (functionNodes macroTable)
open Lowering (buildScript)
open Reference (Tables)
open SyntaxTree (Node)

theorem Reference.Tables.SameValues.extends {t u : Tables} (h : t.SameValues u) : t.Extends u := by
  intro kind entry value hvalue
  rw [← hvalue]
  cases kind <;> simp only [Tables.value?, h.strings, h.imports, h.globals, h.debug]

/-- A function of a tree and what became of it in the image. -/
theorem exists_layout {settings : Settings} {root : Node} {s : Script} {c : CompiledScript}
    (hbuild : buildScript settings root = .ok s) (hcompile : s.compile = .ok c) {i : Nat} {n : Node}
    (hi : (functionNodes root)[i]? = some n) :
    ∃ f start, Control.LoweredFrom settings s.namespaceHash (Lowering.macrosOf (macroTable root))
        c.tables n f ∧ start % 16 = 8 ∧
      c.layouts[i]? = some (f.layoutAt settings.target.order c.tables start) ∧
      slice c.image start (f.endAt start - start) =
        (f.bodyAt settings.target.order c.tables start).bytes.toList := by
  obtain ⟨nameHash, names, -, -, rfl⟩ := Script.compile_eq_ok hcompile
  obtain ⟨functions, hfunctions, rfl, -, hall⟩ := Control.exists_of_buildScript hbuild
  have htables : s.tables.SameValues (s.compiled nameHash names).tables :=
    (s.sameValues_assembled nameHash).symm
  have hplaced : (s.placed nameHash).map (·.1) = functions := by
    rw [s.map_fst_placed, hfunctions, Code.Chain.map_snd_toList_ofList]
  rw [← hplaced, List.forall₂_map_right_iff] at hall
  obtain ⟨hlt, rfl⟩ := List.getElem?_eq_some_iff.mp hi
  have hlt' : i < (s.placed nameHash).length := hall.length_eq ▸ hlt
  have hmem : (s.placed nameHash)[i] ∈ s.placed nameHash := List.getElem_mem hlt'
  refine ⟨_, _, (hall.get hlt hlt').mono htables.extends, (Code.span_of_mem_placeFunctions hmem).2.1,
    ?_, ?_⟩
  · rw [Script.compiled, s.layouts_assembled, Code.layoutsOf, List.getElem?_map,
      List.getElem?_eq_getElem hlt', Option.map_some, ScriptFunction.layoutAt_congr htables.imports]
    rfl
  · rw [← ScriptFunction.bodyAt_congr htables.imports]
    exact Script.slice_function hmem

/-- A function does not depend on its surroundings.  If two trees have the same function, for the same
target and with the same namespace and macros, then the function has the same bytes in both images.
So it has the same size and checksum; its instructions, jumps and references have the same places
relative to its start; and its references are to the same values. -/
theorem function_independent_of_script {settings settings' : Settings} {root root' : Node}
    {s s' : Script} {c c' : CompiledScript}
    (hbuild : buildScript settings root = .ok s) (hcompile : s.compile = .ok c)
    (hbuild' : buildScript settings' root' = .ok s') (hcompile' : s'.compile = .ok c')
    (htarget : settings.target = settings'.target)
    (hflags : settings.flagDeveloperCalls = settings'.flagDeveloperCalls)
    (hnamespace : s.namespaceHash = s'.namespaceHash)
    (hmacros : ∀ name, (macroTable root).lookup name = (macroTable root').lookup name)
    {i j : Nat} {n : Node} (hi : (functionNodes root)[i]? = some n)
    (hj : (functionNodes root')[j]? = some n) :
    ∃ text a b, n.text = .ok text ∧ c.layouts[i]? = some a ∧ c'.layouts[j]? = some b ∧
      a.name = Text.asciiLower text ∧
      slice c.image a.address a.size = slice c'.image b.address b.size ∧
      (slice c.image a.address a.size).length = a.size ∧ a.Same c.tables c'.tables b := by
  obtain ⟨f, start, hf, hstart, hlayout, hslice⟩ := exists_layout hbuild hcompile hi
  obtain ⟨g, start', hg, hstart', hlayout', hslice'⟩ := exists_layout hbuild' hcompile' hj
  obtain ⟨script, script₁, rfl, hscript, hindexed, hlower, hextends⟩ := hf
  obtain ⟨other, other₁, rfl, hother, hindexed', hlower', hextends'⟩ := hg
  rw [← Lowering.macrosOf_congr (Control.nodup_names_macroTable root)
    (Control.nodup_names_macroTable root') hmacros] at hlower'
  have hmatching := @Control.matching_macrosOf script.target (macroTable root)
  have hsame : f.Same c.tables c'.tables g :=
    (Control.same_of_lowerFunction hmatching hindexed hindexed' htarget hflags
      (by rw [hscript, hother, hnamespace]) hlower hlower').mono hextends hextends'
  obtain ⟨text, htext, hname⟩ := Control.name_of_lowerFunction hmatching hindexed hlower
  refine ⟨text, _, _, htext, hlayout, hlayout', hname, ?_, ?_, ?_⟩
  · rw [← htarget] at hslice' ⊢
    exact hslice.trans ((congrArg Array.toList (hsame.bytes_eq _ hstart hstart')).trans hslice'.symm)
  · have hbody := f.size_bodyAt script.settings.target.order c.tables start
    refine (congrArg List.length hslice).trans ?_
    simp only [ScriptFunction.layoutAt, Array.length_toList]
    omega
  · rw [← htarget]
    exact hsame.layouts _ hstart hstart'

/-- A script with a function before the one with the loop, which prints another text. -/
def Control.longerScript : Node :=
  .mk "script" none none [
    .mk "function" (some "init") none [
      .mk "block" none none [
        .mk "simpleCall" none none [
          .mk "call" (some "print") none [
            .mk "arguments" none none [Control.leafNode "stringLiteral" "start"]]]]],
    Control.printingLoop]

/-- A function with a loop, which is the only one of one script and the second one of another. -/
theorem function_independent_of_script_printingLoop :
    ∃ s c s' c', buildScript {} Control.loopScript = .ok s ∧ s.compile = .ok c ∧
      buildScript { scriptName := "scripts/other" } Control.longerScript = .ok s' ∧
      s'.compile = .ok c' ∧ s.namespaceHash = s'.namespaceHash ∧
      ∃ a b, c.layouts[0]? = some a ∧ c'.layouts[1]? = some b ∧ a.name = "main" ∧
        slice c.image a.address a.size = slice c'.image b.address b.size ∧
        a.Same c.tables c'.tables b := by
  obtain ⟨s, c, hbuild, hcompile, -, hcheck⟩ := @Control.exists_compiled_tree {} Control.loopScript
    (fun s => s.namespaceHash = (Script.create {}).namespaceHash) (by decide +kernel)
  obtain ⟨s', c', hbuild', hcompile', -, hcheck'⟩ := @Control.exists_compiled_tree
    { scriptName := "scripts/other" } Control.longerScript
    (fun s => s.namespaceHash = (Script.create {}).namespaceHash) (by decide +kernel)
  have hnamespace : s.namespaceHash = s'.namespaceHash :=
    (of_decide_eq_true hcheck).trans (of_decide_eq_true hcheck').symm
  obtain ⟨text, a, b, htext, ha, hb, hname, hbytes, -, hsame⟩ :=
    @function_independent_of_script {} { scriptName := "scripts/other" } Control.loopScript
      Control.longerScript s s' c c' hbuild hcompile hbuild' hcompile' rfl rfl hnamespace
      (fun _ => rfl) 0 1 Control.printingLoop rfl rfl
  cases htext
  exact ⟨s, c, s', c', hbuild, hcompile, hbuild', hcompile', hnamespace, a, b, ha, hb,
    hname.trans (by decide +kernel), hbytes, hsame⟩

end GscAssembler
