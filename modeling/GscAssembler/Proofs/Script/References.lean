import GscAssembler.Proofs.Image.SelfDescribing
import GscAssembler.Proofs.Script.Landing

/-!
# References are complete and unique

Encoding an instruction records by which address it uses its table entry.  A finished image lists for
every entry the addresses of all instructions that use it, in order, and no others.  An instruction
uses at most one entry, by an address of its own bytes; so all references of a script, in whatever
table, are addresses that increase (`pairwise_referencesFrom`), and in the rows of an image that was
lowered from a tree each of them is found once (`Script.nodup_rows`).  That they are found at all
rests on what lowering emits: it never uses a table that the images of its revision do not store.
-/

namespace GscAssembler.Code

open Bytes (align)
open Reference (TableKind TableReference)

/-! ## The addresses of uses -/

/-- The address by which an instruction at an address uses a table entry: its own if it uses an
import, the one behind its opcode for a global object, and that of its aligned operand for a string. -/
def Instruction.useAddress (target : Target) (address : Nat) : Instruction → Nat
  | .call _ _ | .functionPointer _ _ => address
  | .global _ _ => address + target.opcodeWidth
  | _ => align (address + target.opcodeWidth) (2 * target.opcodeWidth)

/-- The address by which a placed instruction uses an entry, if it does. -/
def Placed.useAddress? (target : Target) (kind : TableKind) (entry : Nat) (p : Placed) : Option Nat :=
  if p.instruction.uses? = some (kind, entry) then
    some (p.instruction.useAddress target p.address)
  else none

theorem Instruction.reference_eq (target : Target) (address : Nat) (i : Instruction) :
    i.reference target address =
      i.uses?.map fun e => ⟨e.1, e.2, i.useAddress target address⟩ := by
  cases i <;> rfl

theorem filter_referencesOf (target : Target) (kind : TableKind) (entry : Nat)
    (placed : List Placed) :
    ((referencesOf target placed).filter fun r => r.table = kind ∧ r.entry = entry).map
      (·.address) = placed.filterMap (Placed.useAddress? target kind entry) := by
  induction placed with
  | nil => rfl
  | cons p rest ih =>
      rw [List.filterMap_cons, ← ih, referencesOf, List.filterMap_cons, Instruction.reference_eq,
        Placed.useAddress?]
      cases hentry : p.instruction.uses? with
      | none => simp [referencesOf]
      | some e =>
          by_cases h : e = (kind, entry)
          · simp [h, referencesOf]
          · have hnot : ¬ (e.1 = kind ∧ e.2 = entry) := fun heq => h (Prod.ext heq.1 heq.2)
            simp [h, hnot, referencesOf]

/-! ## References increase -/

theorem pairwise_referencesOf {target : Target} {localCount : Nat}
    (items : List (Key × Instruction)) (address : Nat) :
    (referencesOf target (placedFrom target localCount address items)).Pairwise
      fun r q => r.address < q.address := by
  refine List.pairwise_filterMap.mpr ?_
  have hspan : ∀ p ∈ placedFrom target localCount address items, ∀ r,
      p.instruction.reference target p.address = some r →
        p.address ≤ r.address ∧ r.address < p.finish := by
    intro p hp r hr
    rw [(finish_of_mem_placedFrom hp).1]
    exact Instruction.reference_mem_span hr localCount
  refine (pairwise_placedFrom items address).imp_of_mem ?_
  intro p q hp hq hle r hr t ht
  have := (hspan p hp r hr).2
  have := (hspan q hq t ht).1
  omega

/-- All references of functions one behind the other have addresses that increase. -/
theorem pairwise_referencesFrom (functions : List ScriptFunction) (position : Nat) :
    (referencesFrom (placeFunctions position functions)).Pairwise
      fun r q => r.address < q.address := by
  have hspan : ∀ p : ScriptFunction × Nat, ∀ r ∈ referencesOf p.1.target (p.1.placedAt p.2),
      p.2 ≤ r.address ∧ r.address < p.1.endAt p.2 := by
    intro p r hr
    obtain ⟨q, hq, hr⟩ := List.mem_filterMap.mp hr
    obtain ⟨hstart, -, hfinish⟩ := span_of_mem_placedFrom hq
    have hin := Instruction.reference_mem_span hr p.1.locals.size
    rw [← (finish_of_mem_placedFrom hq).1] at hin
    have hend : q.finish ≤ p.1.endAt p.2 := hfinish
    omega
  refine List.pairwise_flatMap.mpr ⟨fun p _ => pairwise_referencesOf _ _, ?_⟩
  refine (pairwise_placeFunctions functions position).imp ?_
  intro p q hle r hr t ht
  have := (hspan p r hr).2
  have := (hspan q t ht).1
  omega

end GscAssembler.Code

namespace GscAssembler.Reference

/-! ## The rows of tables -/

/-- The rows of all entries. -/
def Table.allRows {α : Type} [Ord α] (t : Table α) : List (List Nat) :=
  t.entries.toList.flatMap (·.rows)

theorem Table.map_references {α : Type} [Ord α] (t : Table α) :
    t.entries.toList.map (·.references.toList) =
      (List.range t.size).map fun i => (t.referencesAt? i).getD [] := by
  apply List.ext_getElem?
  intro i
  by_cases hi : i < t.size
  · have hget : t.entries[i]? = some t.entries[i] := Array.getElem?_eq_getElem hi
    simp [Table.referencesAt?, Table.get?, hget, List.getElem?_range hi]
  · have hnone : t.entries[i]? = none := Array.getElem?_eq_none (Nat.le_of_not_lt hi)
    simp [hnone, List.getElem?_eq_none (l := List.range t.size) (by simpa using hi)]

theorem Table.flatten_allRows {α : Type} [Ord α] (t : Table α) :
    t.allRows.flatten = (List.range t.size).flatMap fun i => (t.referencesAt? i).getD [] := by
  rw [allRows, List.flatMap_def, List.flatMap_def, ← t.map_references, List.flatten_flatten,
    List.map_map]
  congr 1
  exact List.map_congr_left fun e _ => e.flatten_rows

/-- The rows of a table of a script. -/
def Tables.rowsOf (t : Tables) : TableKind → List (List Nat)
  | .strings => t.strings.allRows
  | .imports => t.imports.allRows
  | .globals => t.globals.allRows
  | .debug => t.debug.allRows

theorem Tables.flatten_rowsOf (t : Tables) (kind : TableKind) :
    (t.rowsOf kind).flatten =
      (List.range (t.sizeOf kind)).flatMap fun i => (t.referencesAt? kind i).getD [] := by
  cases kind <;> exact Table.flatten_allRows _

/-- In lists whose elements are all different, each element is found in one list. -/
theorem exists_filter_eq_singleton {β : Type} {lists : List (β × List Nat)}
    (hnodup : (lists.flatMap (·.2)).Nodup) {l : β × List Nat} (hl : l ∈ lists) {a : Nat}
    (ha : a ∈ l.2) : lists.filter (a ∈ ·.2) = [l] := by
  induction lists with
  | nil => cases hl
  | cons first rest ih =>
      obtain ⟨-, hrest, hdisjoint⟩ := List.nodup_append.mp hnodup
      rcases List.mem_cons.mp hl with rfl | hl
      · have hnone : rest.filter (a ∈ ·.2) = [] := by
          refine List.filter_eq_nil_iff.mpr fun other hother hmem => ?_
          exact hdisjoint a ha a (List.mem_flatMap.mpr ⟨other, hother, by simpa using hmem⟩) rfl
        rw [List.filter_cons, hnone]
        simp [ha]
      · have hnot : a ∉ first.2 := fun hfirst =>
          hdisjoint a hfirst a (List.mem_flatMap.mpr ⟨l, hl, ha⟩) rfl
        rw [List.filter_cons, ih hrest hl]
        simp [hnot]

end GscAssembler.Reference

namespace GscAssembler.Image

open Reference (TableKind)

/-- The tables whose rows the images of a revision store. -/
def storedTables : Revision → List TableKind
  | .legacy => [.imports, .strings, .debug]
  | .rev36 => [.imports, .strings, .globals]

/-- The references in the rows of an image, each row with the table it belongs to. -/
def Loaded.rows (l : Loaded) : List (TableKind × List Nat) :=
  l.imports.map (fun row => (.imports, row.2)) ++ l.strings.map (fun row => (.strings, row.2)) ++
    l.debug.map (fun row => (.debug, row.2)) ++ l.globals.map (fun row => (.globals, row.2))

theorem map_keyedRows {α β : Type} [Ord α] (key : Reference.Entry α → β) (t : Reference.Table α)
    (kind : TableKind) :
    (keyedRows key t).map (fun row => (kind, row.2)) = t.allRows.map fun row => (kind, row) := by
  simp only [keyedRows, Reference.Table.allRows, List.map_flatMap, List.map_map]
  rfl

end GscAssembler.Image

namespace GscAssembler.Script

open Code (ScriptFunction)
open Image (Assembly load storedTables)
open Reference (TableKind TableReference Tables)

section Assembled

variable {s : Script} (nameHash : UInt64)

theorem sameValues_assembled : (s.assembled nameHash).tables.SameValues s.tables :=
  (Assembly.sameValues_foldl_committed _ _).trans (Tables.sameValues_clearReferences _)

/-- What is recorded at a position are references of the functions; nothing is where no entry is. -/
theorem references_sublist (kind : TableKind) (i : Nat) :
    (((s.assembled nameHash).tables.referencesAt? kind i).getD []).Sublist
      (((Code.referencesFrom (s.placed nameHash)).filter
        fun r => r.table = kind ∧ r.entry = i).map (·.address)) := by
  by_cases hi : i < s.tables.sizeOf kind
  · rw [s.referencesAt?_assembled nameHash kind hi, Option.getD_some]
  · rw [← (sameValues_assembled nameHash).sizeOf_eq, ← Tables.isSome_referencesAt?,
      Option.not_isSome_iff_eq_none] at hi
    rw [hi]
    exact List.nil_sublist _

theorem exists_of_mem_references {kind : TableKind} {i address : Nat}
    (h : address ∈ ((s.assembled nameHash).tables.referencesAt? kind i).getD []) :
    ∃ r ∈ Code.referencesFrom (s.placed nameHash), r.table = kind ∧ r.entry = i ∧
      r.address = address := by
  obtain ⟨r, hr, rfl⟩ := List.mem_map.mp ((references_sublist nameHash kind i).subset h)
  obtain ⟨hmem, hkind⟩ := List.mem_filter.mp hr
  obtain ⟨htable, hentry⟩ := of_decide_eq_true hkind
  exact ⟨r, hmem, htable, hentry, rfl⟩

theorem pairwise_references (kind : TableKind) (i : Nat) :
    (((s.assembled nameHash).tables.referencesAt? kind i).getD []).Pairwise (· < ·) := by
  refine List.Pairwise.sublist (references_sublist nameHash kind i) (List.pairwise_map.mpr ?_)
  exact (Code.pairwise_referencesFrom _ _).filter _

/-- No address is recorded for two entries. -/
theorem entry_unique {kind other : TableKind} {i j address : Nat}
    (hi : address ∈ ((s.assembled nameHash).tables.referencesAt? kind i).getD [])
    (hj : address ∈ ((s.assembled nameHash).tables.referencesAt? other j).getD []) :
    kind = other ∧ i = j := by
  obtain ⟨r, hr, rfl, rfl, rfl⟩ := exists_of_mem_references nameHash hi
  obtain ⟨t, ht, rfl, rfl, heq⟩ := exists_of_mem_references nameHash hj
  have hnodup : ((Code.referencesFrom (s.placed nameHash)).map (·.address)).Nodup :=
    List.pairwise_map.mpr ((Code.pairwise_referencesFrom _ _).imp Nat.ne_of_lt)
  rw [List.inj_on_of_nodup_map hnodup hr ht heq.symm]
  exact ⟨rfl, rfl⟩

/-- The rows that an image stores. -/
def storedRows (s : Script) (nameHash : UInt64) : List (TableKind × List Nat) :=
  (storedTables s.target.revision).flatMap fun kind =>
    ((s.assembled nameHash).tables.rowsOf kind).map fun row => (kind, row)

theorem flatMap_storedRows :
    (s.storedRows nameHash).flatMap (·.2) =
      (storedTables s.target.revision).flatMap fun kind =>
        (List.range ((s.assembled nameHash).tables.sizeOf kind)).flatMap fun i =>
          ((s.assembled nameHash).tables.referencesAt? kind i).getD [] := by
  rw [storedRows, List.flatMap_assoc]
  refine List.flatMap_congr fun kind _ => ?_
  rw [← Tables.flatten_rowsOf, List.flatMap_map]
  exact List.flatMap_id

/-- No address stands in the rows of an image twice. -/
theorem nodup_rows : ((s.storedRows nameHash).flatMap (·.2)).Nodup := by
  have hkinds : (storedTables s.target.revision).Nodup := by
    cases s.target.revision <;> decide
  rw [flatMap_storedRows]
  refine List.nodup_flatMap.mpr ⟨fun kind _ => List.nodup_flatMap.mpr ⟨fun i _ => ?_, ?_⟩, ?_⟩
  · exact (pairwise_references nameHash kind i).imp Nat.ne_of_lt
  · refine List.nodup_range.imp fun {i j} hij => ?_
    intro address hi hj
    exact hij (entry_unique nameHash hi hj).2
  · refine hkinds.imp fun {kind other} hne => ?_
    intro address hkind hother
    obtain ⟨i, -, hi⟩ := List.mem_flatMap.mp hkind
    obtain ⟨j, -, hj⟩ := List.mem_flatMap.mp hother
    exact hne (entry_unique nameHash hi hj).1

/-- Each reference to an entry of a stored table is found in one row, which is one of that table. -/
theorem exists_row {kind : TableKind} (hkind : kind ∈ storedTables s.target.revision)
    {i address : Nat}
    (h : address ∈ ((s.assembled nameHash).tables.referencesAt? kind i).getD []) :
    ∃ row, (s.storedRows nameHash).filter (address ∈ ·.2) = [(kind, row)] := by
  have hi : i < (s.assembled nameHash).tables.sizeOf kind := by
    rw [← Tables.isSome_referencesAt?, Option.isSome_iff_ne_none]
    intro hnone
    simp [hnone] at h
  have hflatten : address ∈ ((s.assembled nameHash).tables.rowsOf kind).flatten := by
    rw [Tables.flatten_rowsOf]
    exact List.mem_flatMap.mpr ⟨i, List.mem_range.mpr hi, h⟩
  obtain ⟨row, hrow, haddress⟩ := List.mem_flatten.mp hflatten
  have hmem : (kind, row) ∈ s.storedRows nameHash :=
    List.mem_flatMap.mpr ⟨kind, hkind, List.mem_map_of_mem hrow⟩
  exact ⟨row, Reference.exists_filter_eq_singleton (nodup_rows nameHash) hmem haddress⟩

variable (hfits : (s.startAssembly nameHash).FitsAll (Image.Section.order s.target.revision))
  (hsize : (s.assembled nameHash).finalImage.size < 2 ^ 32)

include hfits hsize in
theorem rows_load_assembled :
    ∃ loaded, load (s.assembled nameHash).finalImage = some loaded ∧
      loaded.rows = s.storedRows nameHash := by
  refine ⟨_, load_assembled nameHash hfits hsize, ?_⟩
  simp only [Image.Loaded.rows, Image.map_keyedRows, storedRows]
  cases s.target.revision <;>
    simp [storedTables, Tables.rowsOf, Image.map_keyedRows]

end Assembled

end GscAssembler.Script

namespace GscAssembler.Control

open Code (Instruction Key ScriptFunction)
open Image (storedTables)
open Lowering
open Reference (TableKind TableReference Tables)
open SyntaxTree (Node)

/-- What uses an entry in a lowered function names what exists. -/
theorem Lowered.wellNamed {tables : Tables} {f : ScriptFunction} {p : Program}
    (h : Lowered tables f p) {item : Key × Instruction} (hitem : item ∈ f.instructions)
    {named : TableKind × Nat} (hnamed : item.2.uses? = some named) :
    WellNamed f.target f.locals tables item.2 := by
  rcases h.cases_of_mem hitem with heq | heq | hwell | ⟨_, _, heq, -⟩
  · rw [heq] at hnamed; cases hnamed
  · rw [heq] at hnamed; cases hnamed
  · exact hwell
  · rw [heq] at hnamed; cases hnamed

/-- Lowering uses no table that the images of its revision do not store. -/
theorem stored_of_emittable {revision : Revision} {i : Instruction} (h : i.Emittable revision)
    {named : TableKind × Nat} (hnamed : i.uses? = some named) :
    named.1 ∈ storedTables revision := by
  cases i <;> simp only [Instruction.uses?, Option.some.injEq, reduceCtorEq] at hnamed <;>
    subst hnamed
  case string | call | functionPointer => cases revision <;> simp [storedTables]
  case debugString =>
    obtain rfl : revision = .legacy := h
    simp [storedTables]
  case global =>
    obtain rfl : revision = .rev36 := h.2
    simp [storedTables]

theorem stored_of_buildScript {settings : Settings} {root : Node} {s : Script}
    (h : buildScript settings root = .ok s) (nameHash : UInt64) {r : TableReference}
    (hr : r ∈ Code.referencesFrom (s.placed nameHash)) :
    r.table ∈ storedTables s.target.revision := by
  obtain ⟨p, hp, hr⟩ := List.mem_flatMap.mp hr
  obtain ⟨q, hq, hr⟩ := List.mem_filterMap.mp hr
  obtain ⟨htarget, program, hlowered⟩ := lowered_of_placed h hp
  rw [Instruction.reference_eq] at hr
  obtain ⟨named, hnamed, rfl⟩ := Option.map_eq_some_iff.mp hr
  have hwell := hlowered.wellNamed (p.1.mem_instructions_of_mem hq) hnamed
  exact htarget ▸ stored_of_emittable hwell.emittable hnamed

end GscAssembler.Control

namespace GscAssembler

open Code (Placed)
open Image (load)
open Lowering
open Reference (TableKind)

/-- References are complete and unique.  A finished image has recorded for every entry one address per
instruction that uses the entry, in the order of the functions and of their instructions, and nothing
else.  The addresses increase, and they are those of the layouts' references.  If the script was built
from a tree, each of them stands in one row of the image, which is one of the entry's table. -/
theorem references_complete {s : Script} {c : CompiledScript} (h : s.compile = .ok c)
    (kind : TableKind) {i : Nat} (hi : i < s.tables.sizeOf kind) :
    List.Forall₂ (fun f layout =>
        layout.instructions.map (fun p => (p.key, p.instruction)) = f.instructions)
      (s.functions.toList.map (·.2)) c.layouts ∧
    ∃ references, c.tables.referencesAt? kind i = some references ∧
      references = ((s.functions.toList.map (·.2)).zip c.layouts).flatMap (fun p =>
        p.2.instructions.filterMap (Placed.useAddress? p.1.target kind i)) ∧
      references.Pairwise (· < ·) ∧
      references = ((c.layouts.flatMap (·.references)).filter
        fun r => r.table = kind ∧ r.entry = i).map (·.address) ∧
      ∀ settings root, buildScript settings root = .ok s → c.image.size < 2 ^ 32 →
        ∃ loaded, load c.image = some loaded ∧ ∀ address ∈ references,
          ∃ row, loaded.rows.filter (address ∈ ·.2) = [(kind, row)] := by
  obtain ⟨nameHash, names, -, hfits, rfl⟩ := Script.compile_eq_ok h
  have hlayouts : (s.compiled nameHash names).layouts = (s.placed nameHash).map fun p =>
      p.1.layoutAt s.target.order s.tables p.2 := s.layouts_assembled nameHash
  have hreferences := s.referencesAt?_assembled nameHash kind hi
  have hincreasing := Script.pairwise_references (s := s) nameHash kind i
  rw [hreferences, Option.getD_some] at hincreasing
  have hflat : (s.compiled nameHash names).layouts.flatMap (·.references) =
      Code.referencesFrom (s.placed nameHash) := by
    rw [hlayouts, List.flatMap_map]
    rfl
  refine ⟨?_, _, hreferences, ?_, hincreasing, by rw [hflat], ?_⟩
  · rw [hlayouts, ← s.map_fst_placed nameHash, List.forall₂_map_left_iff,
      List.forall₂_map_right_iff, List.forall₂_same]
    exact fun p _ => p.1.map_placedAt p.2
  · rw [hlayouts, ← s.map_fst_placed nameHash, List.zip_map', List.flatMap_map,
      Code.referencesFrom, List.filter_flatMap, List.map_flatMap]
    exact List.flatMap_congr fun p _ => Code.filter_referencesOf p.1.target kind i _
  · intro settings root hbuild hsize
    obtain ⟨loaded, hload, hrows⟩ := Script.rows_load_assembled nameHash hfits hsize
    refine ⟨loaded, hload, fun address haddress => ?_⟩
    have hmem : address ∈ ((s.assembled nameHash).tables.referencesAt? kind i).getD [] := by
      rw [hreferences]
      exact haddress
    obtain ⟨r, hr, rfl, -⟩ := Script.exists_of_mem_references nameHash hmem
    rw [hrows]
    exact Script.exists_row nameHash (Control.stored_of_buildScript hbuild nameHash hr) hmem

/-- The references to the text of a script with a loop. -/
theorem references_complete_loopScript :
    ∃ s c, buildScript {} Control.loopScript = .ok s ∧ s.compile = .ok c ∧
      0 < s.tables.sizeOf .strings ∧ c.image.size < 2 ^ 32 ∧
      ∃ references loaded, c.tables.referencesAt? .strings 0 = some references ∧
        references.Pairwise (· < ·) ∧ load c.image = some loaded ∧
        ∀ address ∈ references, ∃ row, loaded.rows.filter (address ∈ ·.2) = [(.strings, row)] := by
  obtain ⟨s, c, hbuild, hcompile, hsize, hstrings⟩ := Control.exists_compiled_loopScript
  obtain ⟨-, references, hreferences, -, hincreasing, -, hrows⟩ :=
    references_complete hcompile .strings hstrings
  obtain ⟨loaded, hload, hrow⟩ := hrows _ _ hbuild hsize
  exact ⟨s, c, hbuild, hcompile, hstrings, hsize, references, loaded, hreferences, hincreasing,
    hload, hrow⟩

end GscAssembler
