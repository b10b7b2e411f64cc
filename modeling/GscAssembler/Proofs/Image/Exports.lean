import GscAssembler.Proofs.Code.Jumps
import GscAssembler.Proofs.Image.Tiling

/-!
# The functions of a finished image

The functions are laid out when their section has its turn.  The sections in front of it add neither
references nor values to the tables, and those behind it change no layout, no reference and no byte of
the code.  So the layouts of a finished image are those of its functions at their places
(`layouts_assembled`), the code found there is their code (`slice_function`), and the references of the
tables are those of their instructions (`referencesAt?_assembled`).
-/

namespace GscAssembler.Image

open Reference (TableKind Tables)

namespace Section

/-- The sections in front of the functions. -/
def beforeExports : Revision → List Section
  | .legacy => [.header, .name, .strings]
  | .rev36 => [.header]

/-- The sections behind the functions. -/
def afterExports : Revision → List Section
  | .legacy => [.imports, .includes, .stringFixups, .debugStrings]
  | .rev36 => [.imports, .strings, .includes, .globals]

theorem order_eq_append (revision : Revision) :
    order revision = beforeExports revision ++ .exports :: afterExports revision := by
  cases revision <;> rfl

theorem exports_notMem_beforeExports (revision : Revision) :
    .exports ∉ beforeExports revision := by
  cases revision <;> decide

theorem exports_notMem_afterExports (revision : Revision) : .exports ∉ afterExports revision := by
  cases revision <;> decide

end Section

namespace Assembly

theorem sameValues_foldl_committed (sections : List Section) :
    ∀ a : Assembly, (sections.foldl committed a).tables.SameValues a.tables := by
  induction sections with
  | nil => intro a; exact .refl _
  | cons s rest ih => intro a; exact (ih _).trans (a.sameValues_filled s)

theorem layouts_filled (a : Assembly) {s : Section} (h : s ≠ .exports) :
    (a.filled s).layouts = a.layouts := by
  cases s with
  | exports => exact absurd rfl h
  | strings => simp only [filled]; split <;> rfl
  | _ => rfl

theorem referencesAt?_filled (a : Assembly) {s : Section} (h : s ≠ .exports) (kind : TableKind)
    (i : Nat) : (a.filled s).tables.referencesAt? kind i = a.tables.referencesAt? kind i := by
  rcases a.tables_filled h with htables | ⟨address, htables⟩ <;> rw [htables]
  cases kind with
  | strings =>
      have hreferences := map_withAddresses (f := fun e => e.references.toList) (fun _ _ => rfl)
        a.tables.strings.entries.toList address
      have hget := congrArg (·[i]?) hreferences
      simpa [Tables.referencesAt?, Reference.Table.referencesAt?, Reference.Table.get?, stringsAt]
        using hget
  | _ => rfl

/-- Only the functions make layouts and references. -/
theorem layouts_foldl_committed {sections : List Section} (h : .exports ∉ sections) :
    ∀ a : Assembly, (sections.foldl committed a).layouts = a.layouts ∧
      ∀ kind i, (sections.foldl committed a).tables.referencesAt? kind i =
        a.tables.referencesAt? kind i := by
  induction sections with
  | nil => intro a; exact ⟨rfl, fun _ _ => rfl⟩
  | cons s rest ih =>
      intro a
      have hs : s ≠ .exports := fun heq => h (heq ▸ List.mem_cons_self ..)
      obtain ⟨hlayouts, hreferences⟩ := ih (fun hrest => h (List.mem_cons_of_mem _ hrest))
        (a.committed s)
      rw [List.foldl_cons]
      exact ⟨hlayouts.trans (a.layouts_filled hs),
        fun kind i => (hreferences kind i).trans (a.referencesAt?_filled hs kind i)⟩

end Assembly

end GscAssembler.Image

namespace GscAssembler.Script

open Bytes (slice)
open Code (FunctionLayout ScriptFunction)
open Image (Assembly Section)
open Reference (TableKind Tables)

/-- The assembly of a script before its functions are laid out. -/
def beforeCode (s : Script) (nameHash : UInt64) : Assembly :=
  (Section.beforeExports s.target.revision).foldl Assembly.committed (s.startAssembly nameHash)

/-- The functions of a script with their starts. -/
def placed (s : Script) (nameHash : UInt64) : List (ScriptFunction × Nat) :=
  (s.beforeCode nameHash).placedFunctions

section

variable (s : Script) (nameHash : UInt64)

theorem assembled_eq :
    s.assembled nameHash = (Section.afterExports s.target.revision).foldl Assembly.committed
      ((s.beforeCode nameHash).committed .exports) := by
  rw [assembled, Section.order_eq_append, List.foldl_append, List.foldl_cons]
  rfl

/-- The header fits into the finished image. -/
theorem headerSize_le_base_assembled :
    (s.assembled nameHash).target.headerSize ≤ (s.assembled nameHash).base := by
  have htarget : (s.assembled nameHash).target = s.target :=
    (Assembly.sameScript_foldl_committed _ (s.startAssembly nameHash)).target
  have hbase := headerSize_le_base_foldl nameHash (Section.order_eq_append s.target.revision)
    (by decide)
  have hgrows := base_le_size nameHash (Section.order_eq_append s.target.revision)
  rw [Assembly.size_finalImage (s.ready_assembled nameHash)] at hgrows
  rw [htarget]
  omega

theorem sameScript_beforeCode : (s.startAssembly nameHash).SameScript (s.beforeCode nameHash) :=
  Assembly.sameScript_foldl_committed _ _

theorem target_beforeCode : (s.beforeCode nameHash).target = s.target :=
  (s.sameScript_beforeCode nameHash).target

theorem functions_beforeCode :
    (s.beforeCode nameHash).functions = s.functions.toList.map (·.2) :=
  (s.sameScript_beforeCode nameHash).functions

theorem sameValues_beforeCode : (s.beforeCode nameHash).tables.SameValues s.tables :=
  (Assembly.sameValues_foldl_committed _ _).trans (Tables.sameValues_clearReferences _)

theorem map_fst_placed : (s.placed nameHash).map (·.1) = s.functions.toList.map (·.2) := by
  rw [placed, Assembly.placedFunctions, Code.map_placeFunctions, functions_beforeCode]

theorem layouts_eq_nextLayouts :
    (s.assembled nameHash).layouts = (s.beforeCode nameHash).nextLayouts := by
  rw [assembled_eq, (Assembly.layouts_foldl_committed
    (Section.exports_notMem_afterExports s.target.revision) _).1]
  rfl

/-- The layouts of a finished image are those of its functions at their places. -/
theorem layouts_assembled : (s.assembled nameHash).layouts =
    Code.layoutsOf s.target.order s.tables (s.placed nameHash) := by
  rw [layouts_eq_nextLayouts, Assembly.nextLayouts, target_beforeCode]
  unfold Code.layoutsOf
  congr 1
  funext p
  exact p.1.layoutAt_congr (s.sameValues_beforeCode nameHash).imports _ _

/-- Every layout is that of a function at its place. -/
theorem exists_placed_of_layout {names : Name.Registry} {layout : Code.FunctionLayout}
    (h : layout ∈ (s.compiled nameHash names).layouts) :
    ∃ p ∈ s.placed nameHash, layout = p.1.layoutAt s.target.order s.tables p.2 ∧
      p.1 ∈ s.functions.toList.map (·.2) := by
  rw [compiled, layouts_assembled] at h
  obtain ⟨p, hp, rfl⟩ := List.mem_map.mp h
  exact ⟨p, hp, rfl, map_fst_placed s nameHash ▸ List.mem_map_of_mem hp⟩

/-- The references recorded for an entry are those of the instructions that name it, in order. -/
theorem referencesAt?_assembled (kind : TableKind) {i : Nat} (hi : i < s.tables.sizeOf kind) :
    (s.assembled nameHash).tables.referencesAt? kind i =
      some (((Code.referencesFrom (s.placed nameHash)).filter
        fun r => r.table = kind ∧ r.entry = i).map (·.address)) := by
  have hlater := (Assembly.layouts_foldl_committed
    (Section.exports_notMem_afterExports s.target.revision)
    ((s.beforeCode nameHash).committed .exports)).2 kind i
  have hbefore := (Assembly.layouts_foldl_committed
    (Section.exports_notMem_beforeExports s.target.revision) (s.startAssembly nameHash)).2 kind i
  have hcleared : (s.startAssembly nameHash).tables.referencesAt? kind i = some [] := by
    change s.tables.clearReferences.referencesAt? kind i = _
    rw [Tables.referencesAt?_clearReferences, if_pos hi]
  rw [assembled_eq, hlater]
  change ((Code.referencesFrom (s.placed nameHash)).foldl Tables.record
    (s.beforeCode nameHash).tables).referencesAt? kind i = _
  rw [Tables.referencesAt?_foldl_record, beforeCode, hbefore, hcleared]
  simp

end

variable {s : Script} {nameHash : UInt64} {names : Name.Registry}

theorem sound_of_fits (hfits : (s.startAssembly nameHash).FitsAll (Section.order s.target.revision))
    {p : ScriptFunction × Nat} (hp : p ∈ s.placed nameHash) : p.1.Sound s.tables p.2 := by
  rw [Section.order_eq_append, Assembly.fitsAll_append] at hfits
  exact (p.1.sound_congr (s.sameValues_beforeCode nameHash).imports p.2).mp
    (hfits.2.1.2 p hp)

/-- The code of a function is found in the finished image where the function was placed. -/
theorem slice_function {p : ScriptFunction × Nat} (hp : p ∈ s.placed nameHash) :
    slice (s.assembled nameHash).finalImage p.2 (p.1.endAt p.2 - p.2) =
      (p.1.bodyAt s.target.order s.tables p.2).bytes.toList := by
  have hslice := slice_assembled nameHash (Section.order_eq_append s.target.revision)
    (by decide)
  rw [← beforeCode] at hslice
  have hbody := p.1.size_bodyAt s.target.order s.tables p.2
  obtain ⟨before, after, hcode, hbefore⟩ :=
    Code.codeFrom_of_mem (s.beforeCode nameHash).target.order (s.beforeCode nameHash).tables hp
  rw [p.1.bodyAt_congr (s.sameValues_beforeCode nameHash).imports, target_beforeCode] at hcode
  generalize hentries : (s.beforeCode nameHash).nextLayouts.flatMap
    (Image.exportBytes (s.beforeCode nameHash).target) = entries
  have hlength : entries.length =
      (s.beforeCode nameHash).functions.length * (s.beforeCode nameHash).target.exportEntrySize := by
    simp [← hentries, List.length_flatMap, Assembly.length_nextLayouts]
  have hbytes : (s.beforeCode nameHash).sectionBytes .exports =
      (entries ++ before) ++ (p.1.bodyAt s.target.order s.tables p.2).bytes.toList ++ after := by
    rw [Assembly.sectionBytes, hentries, Assembly.nextCode, target_beforeCode, hcode]
    simp only [List.append_assoc]
  have hstart : (s.beforeCode nameHash).base + (entries ++ before).length = p.2 := by
    rw [List.length_append, hlength, ← hbefore, Assembly.entriesEnd]
    omega
  have hsize : p.1.endAt p.2 - p.2 =
      (p.1.bodyAt s.target.order s.tables p.2).bytes.toList.length := by
    rw [Array.length_toList]
    omega
  rw [hbytes] at hslice
  have hread := Bytes.slice_of_slice_eq hslice
  rw [hstart] at hread
  rw [hsize, hread]

end GscAssembler.Script
