import GscAssembler.Proofs.Lowering.ByteOrder
import GscAssembler.Proofs.Script.References

/-!
# Byte order only changes the encoding

The script of a tree does not depend on the byte order it is compiled for, but the sizes of its
instructions do, and with them all addresses.  What an image says is the same nevertheless: functions
have the same opcodes, jumps land on the same instructions, and references name the same entries
(`SameCode`), so that all entries have as many references, in rows of the same lengths
(`byte_order_only_encodes`).
-/

namespace GscAssembler.Bytes

variable {α β : Type} {size : Nat}

theorem chunks_map (hsize : 0 < size) (f : α → β) (xs : List α) :
    chunks size (xs.map f) = (chunks size xs).map (List.map f) := by
  induction xs using chunks_induction hsize with
  | nil => rfl
  | cons x rest ih =>
      simp only [List.map_cons, chunks_cons hsize]
      rw [← List.map_cons, ← List.map_take, ← List.map_drop, ih]

/-- How a list is cut depends on its length only. -/
theorem map_length_chunks (hsize : 0 < size) {xs : List α} {ys : List β}
    (h : xs.length = ys.length) :
    (chunks size xs).map List.length = (chunks size ys).map List.length := by
  have hunits : xs.map (fun _ => ()) = ys.map (fun _ => ()) := by simp [List.map_const', h]
  have hmap {γ : Type} (zs : List γ) : (chunks size zs).map List.length =
      (chunks size (zs.map fun _ => ())).map List.length := by
    rw [chunks_map hsize, List.map_map]
    exact List.map_congr_left fun row _ => (List.length_map _).symm
  rw [hmap xs, hmap ys, hunits]

end GscAssembler.Bytes

namespace GscAssembler.Reference

/-- The values of a table, each with the lengths of its rows of references. -/
def Table.usage {α : Type} [Ord α] (t : Table α) : List (α × List Nat) :=
  t.entries.toList.map fun e => (e.value, e.rows.map List.length)

theorem Table.usage_eq {α : Type} [Ord α] {t u : Table α} (hvalues : t.values = u.values)
    (hreferences : ∀ i, (t.referencesAt? i).map List.length = (u.referencesAt? i).map List.length) :
    t.usage = u.usage := by
  apply List.ext_getElem?
  intro i
  have hvalue : t.values[i]? = u.values[i]? := by rw [hvalues]
  have hcount := hreferences i
  simp only [getElem?_values, get?] at hvalue
  simp only [referencesAt?, get?, Option.map_map] at hcount
  simp only [usage, List.getElem?_map, Array.getElem?_toList]
  cases ht : t.entries[i]? with
  | none =>
      cases hu : u.entries[i]? with
      | none => rfl
      | some e => simp [ht, hu] at hvalue
  | some e =>
      cases hu : u.entries[i]? with
      | none => simp [ht, hu] at hvalue
      | some e' =>
          simp only [ht, hu, Option.map_some, Option.some.injEq, Function.comp] at hvalue hcount ⊢
          rw [hvalue, Entry.rows, Entry.rows, Bytes.map_length_chunks (by decide) hcount]

theorem Table.map_length_allRows {α : Type} [Ord α] (t : Table α) :
    t.allRows.map List.length = t.usage.flatMap (·.2) := by
  simp only [allRows, usage, List.map_flatMap, List.flatMap_map]

/-- Whether tables have the same values, each with rows of references of the same lengths. -/
structure Tables.SameUsage (t u : Tables) : Prop where
  strings : t.strings.usage = u.strings.usage
  imports : t.imports.usage = u.imports.usage
  globals : t.globals.usage = u.globals.usage
  debug : t.debug.usage = u.debug.usage

theorem Tables.SameUsage.rowsOf {t u : Tables} (h : t.SameUsage u) (kind : TableKind) :
    (t.rowsOf kind).map List.length = (u.rowsOf kind).map List.length := by
  cases kind <;> simp only [Tables.rowsOf, Table.map_length_allRows, h.strings, h.imports, h.globals,
    h.debug]

end GscAssembler.Reference

namespace GscAssembler.Code

open Reference (Tables)

/-- The position of the instruction that each jump lands on. -/
def FunctionLayout.landings (l : FunctionLayout) : List (Option Nat) :=
  l.jumps.map fun j => l.instructions.findIdx? (·.address = j.landing)

/-- Whether two layouts say the same of a function, at whatever addresses. -/
structure SameCode (l l' : FunctionLayout) : Prop where
  /-- The functions are exported alike. -/
  signature : l'.name = l.name ∧ l'.hash = l.hash ∧ l'.namespaceHash = l.namespaceHash ∧
    l'.params = l.params ∧ l'.flags = l.flags
  /-- They have the same instructions. -/
  instructions : l'.instructions.map (fun p => (p.key, p.instruction)) =
    l.instructions.map fun p => (p.key, p.instruction)
  /-- These are encoded with the same opcodes. -/
  opcodes : l'.instructions.map (·.opcode) = l.instructions.map (·.opcode)
  /-- All jumps land on instructions. -/
  lands : none ∉ l.landings
  /-- They land on the same ones. -/
  landings : l'.landings = l.landings
  /-- References are to the same entries. -/
  references : l'.references.map (fun r => (r.table, r.entry)) =
    l.references.map fun r => (r.table, r.entry)

/-- Where an instruction jumps to, by the key of the instruction it lands behind. -/
def Instruction.jumpTarget? : Instruction → Option Key
  | .jump _ target => target
  | _ => none

namespace ScriptFunction

variable (f : ScriptFunction) (start : Nat)

theorem opcodes_placedAt : (f.placedAt start).map (·.opcode) =
    f.instructions.map fun item => item.2.opcode f.target f.locals.size := by
  rw [← f.map_placedAt start, List.map_map]
  exact List.map_congr_left fun p hp => (finish_of_mem_placedFrom hp).2

theorem references_placedAt : (referencesOf f.target (f.placedAt start)).map
      (fun r => (r.table, r.entry)) = f.instructions.filterMap fun item => item.2.uses? := by
  rw [← f.map_placedAt start, referencesOf, List.map_filterMap, List.filterMap_map]
  congr 1
  funext p
  rw [Instruction.reference_eq, Function.comp_apply]
  cases p.instruction.uses? <;> rfl

/-- Instructions at different positions have different addresses. -/
theorem findIdx?_placedAt {position : Nat} {p : Placed} (h : (f.placedAt start)[position]? = some p) :
    (f.placedAt start).findIdx? (·.address = p.address) = some position := by
  obtain ⟨hlt, rfl⟩ := List.getElem?_eq_some_iff.mp h
  refine List.findIdx?_eq_some_iff_getElem.mpr ⟨hlt, by simp, fun earlier hearlier => ?_⟩
  have hle := List.pairwise_iff_getElem.mp (pairwise_placedFrom f.instructions start) earlier position
    (hearlier.trans hlt) hlt hearlier
  have hspan := (span_of_mem_placedFrom
    (List.getElem_mem (hearlier.trans hlt) : (f.placedAt start)[earlier] ∈ f.placedAt start)).2.1
  simp only [decide_eq_true_eq]
  exact Nat.ne_of_lt (Nat.lt_of_lt_of_le hspan hle)

end ScriptFunction

end GscAssembler.Code

namespace GscAssembler.Control

open Bytes (ByteOrder)
open Code (FunctionLayout Instruction Key ScriptFunction)
open Reference (Tables)

/-- The jumps of a lowered function land behind their targets. -/
theorem Lowered.landings {tables : Tables} {f : ScriptFunction} {p : Program}
    (h : Lowered tables f p) {start : Nat} (hsound : f.Sound tables start) (order : ByteOrder) :
    (f.layoutAt order tables start).landings = (f.instructions.filter (·.2.isJump)).map
      fun item => item.2.jumpTarget?.map fun key => key.slot + 1 := by
  rw [← f.map_placedAt start, List.filter_map, List.map_map]
  apply Eq.symm
  rw [← List.forall₂_eq_eq_eq, FunctionLayout.landings, List.forall₂_map_left_iff,
    List.forall₂_map_right_iff]
  have hmem : ∀ q ∈ (f.placedAt start).filter (·.instruction.isJump), q ∈ f.placedAt start :=
    fun q hq => (List.mem_filter.mp hq).1
  refine ((List.forall₂_and_left _ _).mpr ⟨hmem, Code.ScriptFunction.forall₂_jumpsAt hsound⟩).imp ?_
  rintro q j ⟨hq, hj⟩
  obtain ⟨position, next, hinstruction, hnext, haddress⟩ := h.getElem?_landing hq hj
  have hindex := f.findIdx?_placedAt start hnext
  rw [haddress] at hindex
  simp only [Function.comp, hinstruction, Instruction.jumpTarget?, Option.map_some, Key.at_slot]
  exact hindex.symm

theorem Lowered.none_notMem_landings {tables : Tables} {f : ScriptFunction} {p : Program}
    (h : Lowered tables f p) {start : Nat} (hsound : f.Sound tables start) (order : ByteOrder) :
    none ∉ (f.layoutAt order tables start).landings := by
  rw [h.landings hsound]
  intro hnone
  obtain ⟨⟨key, i⟩, hitem, htarget⟩ := List.mem_map.mp hnone
  obtain ⟨hmem, hjump⟩ := List.mem_filter.mp hitem
  cases i with
  | jump code target =>
      obtain ⟨position, rfl, -⟩ := h.target_of_mem hmem rfl
      cases htarget
  | _ => cases hjump

/-- A function that was lowered says the same in another byte order, wherever it lies. -/
theorem Lowered.sameCode {tables : Tables} {f : ScriptFunction} {order : ByteOrder}
    {p p' : Program} (h : Lowered tables f p) (h' : Lowered tables (f.withOrder order) p')
    {start start' : Nat} (hsound : f.Sound tables start)
    (hsound' : (f.withOrder order).Sound tables start') (first second : ByteOrder) :
    Code.SameCode (f.layoutAt first tables start)
      ((f.withOrder order).layoutAt second tables start') where
  signature := ⟨rfl, rfl, rfl, rfl, rfl⟩
  instructions := by
    simp only [ScriptFunction.layoutAt]
    rw [f.map_placedAt, (f.withOrder order).map_placedAt]
    rfl
  opcodes := by
    simp only [ScriptFunction.layoutAt]
    rw [f.opcodes_placedAt, (f.withOrder order).opcodes_placedAt]
    rfl
  lands := h.none_notMem_landings hsound first
  landings := by
    rw [h.landings hsound, h'.landings hsound']
    rfl
  references := by
    simp only [ScriptFunction.layoutAt]
    rw [f.references_placedAt, (f.withOrder order).references_placedAt]
    rfl

end GscAssembler.Control

namespace GscAssembler

open Bytes (ByteOrder)
open Code (SameCode ScriptFunction)
open Image (load)
open Lowering
open Reference (TableKind)
open SyntaxTree (Node)

section Assembled

variable {s : Script} (order : ByteOrder) (nameHash nameHash' : UInt64)

theorem forall₂_placed : List.Forall₂ (fun p p' : ScriptFunction × Nat => p'.1 = p.1.withOrder order)
    (s.placed nameHash) ((s.withOrder order).placed nameHash') := by
  have hfunctions : (s.withOrder order).functions.toList.map (·.2) =
      (s.functions.toList.map (·.2)).map fun f => f.withOrder order := by
    rw [Script.withOrder, Code.Chain.toList_map, List.map_map, List.map_map]
    rfl
  rw [← s.map_fst_placed nameHash, ← (s.withOrder order).map_fst_placed nameHash', List.map_map,
    ← List.forall₂_eq_eq_eq, List.forall₂_map_left_iff, List.forall₂_map_right_iff] at hfunctions
  exact hfunctions.flip

/-- The entries that the functions of a script refer to, in order. -/
theorem references_placed : (Code.referencesFrom (s.placed nameHash)).map
      (fun r => (r.table, r.entry)) = (s.functions.toList.map (·.2)).flatMap fun f =>
        f.instructions.filterMap fun item => item.2.uses? := by
  rw [← s.map_fst_placed nameHash, Code.referencesFrom, List.map_flatMap, List.flatMap_map]
  exact List.flatMap_congr fun p _ => p.1.references_placedAt p.2

theorem length_referencesAt? (kind : TableKind) (i : Nat) :
    ((s.assembled nameHash).tables.referencesAt? kind i).map List.length =
      if i < s.tables.sizeOf kind then
        some (((s.functions.toList.map (·.2)).flatMap fun f =>
          f.instructions.filterMap fun item => item.2.uses?).countP (· = (kind, i)))
      else none := by
  split
  case isTrue hi =>
      rw [s.referencesAt?_assembled nameHash kind hi, ← references_placed nameHash, List.countP_map,
        List.countP_eq_length_filter, Option.map_some, List.length_map]
      congr 3
      funext r
      simp [Prod.ext_iff]
  case isFalse hi =>
      rw [← (s.sameValues_assembled nameHash).sizeOf_eq, ← Reference.Tables.isSome_referencesAt?,
        Option.not_isSome_iff_eq_none] at hi
      rw [hi, Option.map_none]

/-- All entries are used as often in another byte order. -/
theorem sameUsage_assembled : ((s.withOrder order).assembled nameHash').tables.SameUsage
    (s.assembled nameHash).tables := by
  have hvalues := s.sameValues_assembled nameHash
  have hvalues' : ((s.withOrder order).assembled nameHash').tables.SameValues s.tables :=
    (s.withOrder order).sameValues_assembled nameHash'
  have hfunctions : ((s.withOrder order).functions.toList.map (·.2)).flatMap (fun f =>
      f.instructions.filterMap fun item => item.2.uses?) =
      (s.functions.toList.map (·.2)).flatMap fun f =>
        f.instructions.filterMap fun item => item.2.uses? := by
    rw [Script.withOrder, Code.Chain.toList_map, List.map_map, List.flatMap_map, List.flatMap_map]
    rfl
  have hcounts (kind : TableKind) (i : Nat) :
      (((s.withOrder order).assembled nameHash').tables.referencesAt? kind i).map List.length =
        ((s.assembled nameHash).tables.referencesAt? kind i).map List.length := by
    rw [length_referencesAt?, length_referencesAt?, hfunctions]
    rfl
  exact ⟨Reference.Table.usage_eq (hvalues'.strings.trans hvalues.strings.symm) (hcounts .strings),
    Reference.Table.usage_eq (hvalues'.imports.trans hvalues.imports.symm) (hcounts .imports),
    Reference.Table.usage_eq (hvalues'.globals.trans hvalues.globals.symm) (hcounts .globals),
    Reference.Table.usage_eq (hvalues'.debug.trans hvalues.debug.symm) (hcounts .debug)⟩

/-- The rows of an image belong to the same tables and have the same lengths in another byte order. -/
theorem map_length_storedRows :
    ((s.withOrder order).storedRows nameHash').map (fun row => (row.1, row.2.length)) =
      (s.storedRows nameHash).map fun row => (row.1, row.2.length) := by
  have husage := sameUsage_assembled (s := s) order nameHash nameHash'
  simp only [Script.storedRows, List.map_flatMap, List.map_map]
  refine List.flatMap_congr fun kind _ => ?_
  have hrows := congrArg (List.map (Prod.mk kind)) (husage.rowsOf kind)
  rw [List.map_map, List.map_map] at hrows
  exact hrows

/-- Corresponding functions of the two images say the same. -/
theorem sameCode_assembled {settings : Settings} {root : Node}
    (hbuild : buildScript settings root = .ok s)
    (hbuild' : buildScript (settings.withOrder order) root = .ok (s.withOrder order))
    (hfits : (s.startAssembly nameHash).FitsAll (Image.Section.order s.target.revision))
    (hfits' : ((s.withOrder order).startAssembly nameHash').FitsAll
      (Image.Section.order (s.withOrder order).target.revision)) :
    List.Forall₂ SameCode (s.assembled nameHash).layouts
      ((s.withOrder order).assembled nameHash').layouts := by
  rw [s.layouts_assembled, (s.withOrder order).layouts_assembled, Code.layoutsOf, Code.layoutsOf,
    List.forall₂_map_left_iff, List.forall₂_map_right_iff]
  have hplaced := List.forall₂_iff_zip.mp (forall₂_placed (s := s) order nameHash nameHash')
  refine List.forall₂_iff_zip.mpr ⟨hplaced.1, fun {p p'} hzip => ?_⟩
  obtain ⟨hp, hp'⟩ := List.of_mem_zip hzip
  obtain ⟨-, program, hprogram⟩ := Control.lowered_of_placed hbuild hp
  obtain ⟨-, program', hprogram'⟩ := Control.lowered_of_placed hbuild' hp'
  have hsound := Script.sound_of_fits hfits hp
  have hsound' := Script.sound_of_fits hfits' hp'
  rw [hplaced.2 hzip] at hprogram' hsound' ⊢
  exact hprogram.sameCode hprogram' hsound hsound' _ _

end Assembled

/-- Byte order only changes the encoding.  In another byte order a tree gives the same script, with the
same functions under the same keys, or the same error.  If both scripts can be assembled, the images say
the same: corresponding functions have the same opcodes, their jumps land on the same instructions and
their references are to the same entries; all tables have the same values, each with rows of references
of the same lengths, and the images shorter than 2 ^ 32 bytes store such rows. -/
theorem byte_order_only_encodes (settings : Settings) (order : ByteOrder) (root : Node) :
    buildScript (settings.withOrder order) root =
      (buildScript settings root).map (fun s => s.withOrder order) ∧
    (∀ s : Script, (s.withOrder order).functions.toList =
      s.functions.toList.map fun item => (item.1, item.2.withOrder order)) ∧
    ∀ c c', compileTree settings root = .ok c →
      compileTree (settings.withOrder order) root = .ok c' →
      List.Forall₂ SameCode c.layouts c'.layouts ∧ c'.tables.SameUsage c.tables ∧
      c'.names = c.names ∧
      (c.image.size < 2 ^ 32 → c'.image.size < 2 ^ 32 →
        ∃ loaded loaded', load c.image = some loaded ∧ load c'.image = some loaded' ∧
          loaded'.rows.map (fun row => (row.1, row.2.length)) =
            loaded.rows.map fun row => (row.1, row.2.length)) := by
  have hbuild := buildScript_withOrder order settings root
  refine ⟨hbuild, fun s => Code.Chain.toList_map _ _, fun c c' hc hc' => ?_⟩
  obtain ⟨s, hs, hcompile⟩ := Control.except_bind_eq_ok.mp hc
  obtain ⟨s', hs', hcompile'⟩ := Control.except_bind_eq_ok.mp hc'
  obtain rfl : s' = s.withOrder order := by
    rw [hbuild, hs] at hs'
    exact (Except.ok.inj hs').symm
  obtain ⟨nameHash, names, hname, hfits, rfl⟩ := Script.compile_eq_ok hcompile
  obtain ⟨nameHash', names', hname', hfits', rfl⟩ := Script.compile_eq_ok hcompile'
  refine ⟨sameCode_assembled order nameHash nameHash' hs (hbuild.trans (by rw [hs]; rfl)) hfits hfits',
    sameUsage_assembled order nameHash nameHash', ?_, fun hsize hsize' => ?_⟩
  · have hhashed : Except.ok (nameHash', names') = .ok (nameHash, names) := hname'.symm.trans hname
    exact congrArg Prod.snd (Except.ok.inj hhashed)
  · obtain ⟨loaded, hload, hrows⟩ := Script.rows_load_assembled nameHash hfits hsize
    obtain ⟨loaded', hload', hrows'⟩ := Script.rows_load_assembled nameHash' hfits' hsize'
    refine ⟨loaded, loaded', hload, hload', ?_⟩
    rw [hrows, hrows']
    exact map_length_storedRows order nameHash nameHash'

/-- A loop in both byte orders, in images of different sizes. -/
theorem byte_order_only_encodes_loopScript :
    ∃ c c', compileTree {} Control.loopScript = .ok c ∧
      compileTree (Settings.withOrder {} .big) Control.loopScript = .ok c' ∧
      c.image.size ≠ c'.image.size ∧ List.Forall₂ SameCode c.layouts c'.layouts ∧
      c'.tables.SameUsage c.tables ∧
      ∃ loaded loaded', load c.image = some loaded ∧ load c'.image = some loaded' ∧
        loaded'.rows.map (fun row => (row.1, row.2.length)) =
          loaded.rows.map fun row => (row.1, row.2.length) := by
  obtain ⟨c, hc, hsize⟩ := @Control.exists_of_compileTree {} Control.loopScript
    (fun c => c.image.size = 288) (by decide +kernel)
  obtain ⟨c', hc', hsize'⟩ := @Control.exists_of_compileTree (Settings.withOrder {} .big)
    Control.loopScript (fun c => c.image.size = 272) (by decide +kernel)
  simp only [decide_eq_true_eq] at hsize hsize'
  obtain ⟨hcode, husage, -, hrows⟩ :=
    (byte_order_only_encodes {} .big Control.loopScript).2.2 c c' hc hc'
  exact ⟨c, c', hc, hc', by omega, hcode, husage, hrows (by omega) (by omega)⟩

end GscAssembler
