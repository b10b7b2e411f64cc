import GscAssembler.Proofs.Image.SelfDescribing

/-!
# Where the code of a finished image lies

The section of the functions consists of the export entries, the code of the functions and zeros.
`FunctionLayout.finish` is the end of a function; each function starts 8 bytes behind a multiple of 16
and at least 8 bytes behind whatever is in front of it (`apart_placeFunctions`), its instructions
follow each other from its start to its end (`contiguous_placedFrom`), and what lies between the
functions is zero (`codeFrom_of_uncovered`).

The checksum of a function is computed when it is laid out.  Nothing that is written later touches its
code, so it is still the checksum of the bytes that the finished image has there, and the export entry
says so (`function_regions`).
-/

namespace GscAssembler.Code

open Bytes (ByteOrder)
open Reference (Tables)

/-! ## Instructions one behind the other -/

/-- Whether instructions follow each other from one address to another. -/
def Contiguous : (start : Nat) → List Placed → (finish : Nat) → Prop
  | start, [], finish => start = finish
  | start, p :: rest, finish => p.address = start ∧ Contiguous p.finish rest finish

theorem contiguous_placedFrom {target : Target} {localCount : Nat}
    (items : List (Key × Instruction)) :
    ∀ address, Contiguous address (placedFrom target localCount address items)
      (codeEnd target localCount address items) := by
  induction items with
  | nil => intro address; rfl
  | cons item rest ih =>
      intro address
      refine ⟨rfl, ?_⟩
      have hlt := item.2.lt_finish target localCount address
      have hfinish : address + (item.2.finish target localCount address - address) =
          item.2.finish target localCount address := by omega
      simp only [Placed.finish, hfinish]
      exact ih _

/-! ## Functions apart from each other -/

/-- The address behind a function. -/
def FunctionLayout.finish (l : FunctionLayout) : Nat :=
  l.address + l.size

/-- Whether an address is one of the code of a function. -/
def FunctionLayout.Covers (l : FunctionLayout) (address : Nat) : Prop :=
  l.address ≤ address ∧ address < l.finish

theorem ScriptFunction.finish_layoutAt (f : ScriptFunction) (order : ByteOrder) (tables : Tables)
    (start : Nat) : (f.layoutAt order tables start).finish = f.endAt start := by
  have := f.le_endAt start
  simp only [FunctionLayout.finish, layoutAt]
  omega

theorem add_functionGap_le (position : Nat) : position + functionGap ≤ functionStart position :=
  Nat.add_le_add_right (Bytes.le_align (by decide)) _

/-- A placed function keeps its distance from the address that all start from. -/
theorem apart_placeFunctions {functions : List ScriptFunction} {p : ScriptFunction × Nat} :
    ∀ {position}, p ∈ placeFunctions position functions → position + functionGap ≤ p.2 := by
  induction functions with
  | nil => intro position hp; simp [placeFunctions] at hp
  | cons f rest ih =>
      intro position hp
      have hstart := add_functionGap_le position
      rcases List.mem_cons.mp hp with rfl | hp
      · exact hstart
      · have hend := f.le_endAt (functionStart position)
        have := ih hp
        omega

/-- Placed functions keep their distance from each other. -/
theorem pairwise_apart_placeFunctions (functions : List ScriptFunction) :
    ∀ position, (placeFunctions position functions).Pairwise
      fun p q => p.1.endAt p.2 + functionGap ≤ q.2 := by
  induction functions with
  | nil => intro position; exact List.Pairwise.nil
  | cons f rest ih =>
      intro position
      exact List.Pairwise.cons (fun q hq => apart_placeFunctions hq) (ih _)

/-- What no function covers is zero. -/
theorem codeFrom_of_uncovered (order : ByteOrder) (tables : Tables)
    (functions : List ScriptFunction) :
    ∀ {position address}, position ≤ address → address < functionsEnd position functions →
      (∀ p ∈ placeFunctions position functions, ¬ (p.2 ≤ address ∧ address < p.1.endAt p.2)) →
      (codeFrom order tables position functions)[address - position]? = some 0 := by
  induction functions with
  | nil =>
      intro position address hle hlt _
      have : address < position := hlt
      omega
  | cons f rest ih =>
      intro position address hle hlt huncovered
      generalize hstart : functionStart position = start
      have hgap : position ≤ start := hstart ▸ le_functionStart position
      have hbody := f.size_bodyAt order tables start
      have hhere : ¬ (start ≤ address ∧ address < f.endAt start) := by
        rw [← hstart]
        exact huncovered _ (List.mem_cons_self ..)
      rw [codeFrom, hstart]
      by_cases hbefore : address < start
      · -- The address is among the zeros in front of the first function.
        rw [List.append_assoc, List.getElem?_append_left (by simp; omega)]
        simp only [List.getElem?_replicate]
        rw [if_pos (by omega)]
      · have hbehind : f.endAt start ≤ address := by omega
        have hrest := ih hbehind (by rw [← hstart]; exact hlt) fun p hp =>
          huncovered p (List.mem_cons_of_mem _ (by rwa [hstart]))
        have hlength : (List.replicate (start - position) (0 : UInt8) ++
            (f.bodyAt order tables start).bytes.toList).length = f.endAt start - position := by
          simp only [List.length_append, List.length_replicate, Array.length_toList]
          omega
        rw [List.getElem?_append_right (by omega), hlength, ← hrest]
        congr 1
        omega

end GscAssembler.Code

namespace GscAssembler.Image

namespace Assembly

theorem recordOf_mem_recordsFrom (before after : List Section) (s : Section) :
    ∀ a : Assembly,
      (before.foldl committed a).recordOf s ∈ a.recordsFrom (before ++ s :: after) := by
  induction before with
  | nil => intro a; exact List.mem_cons_self ..
  | cons first rest ih => intro a; exact List.mem_cons_of_mem _ (ih _)

end Assembly

end GscAssembler.Image

namespace GscAssembler.Script

open Bytes (slice)
open Code (FunctionLayout ScriptFunction)
open Image (Assembly Section SectionRecord)

variable (s : Script) (nameHash : UInt64)

/-- The record of the functions. -/
def exportsRecord : SectionRecord :=
  (s.beforeCode nameHash).recordOf .exports

theorem exportsRecord_mem : s.exportsRecord nameHash ∈ (s.assembled nameHash).records.toList := by
  rw [records_assembled, Section.order_eq_append]
  exact Assembly.recordOf_mem_recordsFrom _ _ _ _

theorem exportsRecord_le_size :
    (s.exportsRecord nameHash).base + (s.exportsRecord nameHash).size ≤
      (s.assembled nameHash).finalImage.size := by
  rw [Assembly.size_finalImage (s.ready_assembled nameHash), assembled_eq,
    Assembly.base_foldl_committed, Assembly.base_committed]
  exact Nat.le_add_right _ _

theorem entriesEnd_beforeCode :
    (s.beforeCode nameHash).entriesEnd = (s.exportsRecord nameHash).base +
      (s.assembled nameHash).layouts.length * s.target.exportEntrySize := by
  rw [Assembly.entriesEnd, layouts_eq_nextLayouts, Assembly.length_nextLayouts, target_beforeCode]
  rfl

theorem functionsEnd_beforeCode_le :
    Code.functionsEnd (s.beforeCode nameHash).entriesEnd (s.beforeCode nameHash).functions ≤
      (s.exportsRecord nameHash).base + (s.exportsRecord nameHash).size := by
  rw [← Assembly.length_exports]
  simp only [exportsRecord, Assembly.recordOf]
  omega

/-- What is neither an export entry nor code is zero, up to the end of the section. -/
theorem getElem?_of_uncovered {address : Nat}
    (hentries : (s.beforeCode nameHash).entriesEnd ≤ address)
    (hend : address < (s.exportsRecord nameHash).base + (s.exportsRecord nameHash).size)
    (huncovered : ∀ p ∈ s.placed nameHash, ¬ (p.2 ≤ address ∧ address < p.1.endAt p.2)) :
    (s.assembled nameHash).finalImage[address]? = some 0 := by
  have hslice := slice_padded_assembled nameHash (Section.order_eq_append s.target.revision)
    (by decide)
  rw [← beforeCode] at hslice
  have hlength := (s.beforeCode nameHash).length_exports
  have hcode := (s.beforeCode nameHash).length_nextCode
  simp only [exportsRecord, Assembly.recordOf] at hend
  have hbase : (s.beforeCode nameHash).base ≤ address :=
    Nat.le_trans (Nat.le_add_right _ _) hentries
  have hoffset : address - (s.beforeCode nameHash).base <
      ((s.beforeCode nameHash).sectionBytes .exports).length +
        (s.beforeCode nameHash).sectionGap .exports := by omega
  have hat := Bytes.getElem?_slice (s.assembled nameHash).finalImage (s.beforeCode nameHash).base
    hoffset
  rw [hslice, Nat.add_sub_cancel' hbase] at hat
  rw [← hat]
  by_cases hin : address < Code.functionsEnd (s.beforeCode nameHash).entriesEnd
      (s.beforeCode nameHash).functions
  · -- The address is between the functions, or in front of the first.
    have hspace : ((s.beforeCode nameHash).nextLayouts.flatMap
        (Image.exportBytes (s.beforeCode nameHash).target)).length =
          (s.beforeCode nameHash).entriesEnd - (s.beforeCode nameHash).base := by
      simp [List.length_flatMap, Assembly.length_nextLayouts, Assembly.entriesEnd]
    have hzero := Code.codeFrom_of_uncovered (s.beforeCode nameHash).target.order
      (s.beforeCode nameHash).tables _ hentries hin huncovered
    rw [List.getElem?_append_left (by omega), Assembly.sectionBytes,
      List.getElem?_append_right (by omega), hspace, ← hzero]
    congr 1
    simp only [Assembly.entriesEnd] at hentries ⊢
    omega
  · -- The address is behind the last function.
    rw [List.getElem?_append_right (by omega), List.getElem?_replicate, if_pos (by omega)]

theorem layouts_of_functions : (s.assembled nameHash).layouts.map
      (fun l => (l.name, l.hash, l.namespaceHash,
        l.instructions.map fun p => (p.key, p.instruction))) =
    s.functions.toList.map fun item =>
      (item.2.name, item.2.hash, item.2.namespaceHash, item.2.instructions) := by
  have hfunctions := s.map_fst_placed nameHash
  rw [layouts_assembled, Code.layoutsOf, List.map_map]
  have hlayout : ((fun l : FunctionLayout => (l.name, l.hash, l.namespaceHash,
        l.instructions.map fun p => (p.key, p.instruction))) ∘
      fun p : ScriptFunction × Nat => p.1.layoutAt s.target.order s.tables p.2) =
      (fun f : ScriptFunction => (f.name, f.hash, f.namespaceHash, f.instructions)) ∘ (·.1) := by
    funext p
    simp [ScriptFunction.layoutAt, ScriptFunction.map_placedAt]
  rw [hlayout, ← List.map_map, hfunctions, List.map_map]
  rfl

variable {s nameHash}

/-- The checksum of a function is that of its bytes in the finished image. -/
theorem crc_of_mem_layouts {l : FunctionLayout} (hl : l ∈ (s.assembled nameHash).layouts) :
    Bytes.crc32 (slice (s.assembled nameHash).finalImage l.address l.size) = l.crc := by
  rw [layouts_assembled] at hl
  obtain ⟨p, hp, rfl⟩ := List.mem_map.mp hl
  have hbytes := slice_function hp
  simp only [ScriptFunction.layoutAt, hbytes]

end GscAssembler.Script

namespace GscAssembler

open Bytes (crc32 slice)
open Code (Contiguous FunctionLayout)
open Image (Assembly ExportEntry Section readExports)

/-- Functions lie apart, and their checksums describe the finished image.  In the section of the
functions the export entries come first, one for each function of the script in its order.  Behind them
the functions follow each other, each 8 bytes behind a multiple of 16 and at least 8 bytes behind
whatever is in front of it; every byte of the section that belongs to neither is zero.  The
instructions of a function are contiguous and fill it.  In the finished image, the checksum of the
bytes of a function is the one of its layout and the one that its export entry holds. -/
theorem function_regions {s : Script} {c : CompiledScript} (h : s.compile = .ok c)
    (hsize : c.image.size < 2 ^ 32) :
    c.layouts.map (fun l => (l.name, l.hash, l.namespaceHash,
        l.instructions.map fun p => (p.key, p.instruction))) =
      s.functions.toList.map (fun item =>
        (item.2.name, item.2.hash, item.2.namespaceHash, item.2.instructions)) ∧
    ∃ r, c.section? .exports = some r ∧ r.base + r.size ≤ c.image.size ∧
      c.layouts.Pairwise (fun l m => l.finish + 8 ≤ m.address) ∧
      (∀ l ∈ c.layouts,
        r.base + c.layouts.length * s.target.exportEntrySize + 8 ≤ l.address ∧
        l.address % 16 = 8 ∧ l.finish ≤ r.base + r.size ∧
        Contiguous l.address l.instructions l.finish) ∧
      (∀ address, r.base + c.layouts.length * s.target.exportEntrySize ≤ address →
        address < r.base + r.size → (∀ l ∈ c.layouts, ¬ l.Covers address) →
        c.image[address]? = some 0) ∧
      ∀ (i : Nat) (l : FunctionLayout), c.layouts[i]? = some l →
        crc32 (slice c.image l.address l.size) = l.crc ∧
        ∃ entry, (readExports s.target c.image c.layouts.length r.base)[i]? = some entry ∧
          entry.crc = l.crc ∧ entry.address = l.address := by
  obtain ⟨nameHash, names, -, hfits, rfl⟩ := Script.compile_eq_ok h
  have hentries := s.entriesEnd_beforeCode nameHash
  have hlayouts := s.layouts_assembled nameHash
  have hmem : ∀ l ∈ (s.assembled nameHash).layouts, ∃ p ∈ s.placed nameHash,
      l = p.1.layoutAt s.target.order s.tables p.2 := by
    intro l hl
    rw [hlayouts] at hl
    obtain ⟨p, hp, rfl⟩ := List.mem_map.mp hl
    exact ⟨p, hp, rfl⟩
  refine ⟨s.layouts_of_functions nameHash, s.exportsRecord nameHash,
    Script.section?_of_mem (s.exportsRecord_mem nameHash), s.exportsRecord_le_size nameHash,
    ?_, ?_, ?_, ?_⟩
  · change (s.assembled nameHash).layouts.Pairwise _
    rw [hlayouts, Code.layoutsOf, List.pairwise_map]
    refine (Code.pairwise_apart_placeFunctions _ _).imp fun {p q} hapart => ?_
    rw [Code.ScriptFunction.finish_layoutAt]
    exact hapart
  · intro l hl
    obtain ⟨p, hp, rfl⟩ := hmem l hl
    obtain ⟨-, hmod, hend⟩ := Code.span_of_mem_placeFunctions hp
    have hgap := Code.apart_placeFunctions hp
    rw [hentries] at hgap
    rw [Code.ScriptFunction.finish_layoutAt]
    exact ⟨hgap, hmod, Nat.le_trans hend (s.functionsEnd_beforeCode_le nameHash),
      Code.contiguous_placedFrom _ _⟩
  · intro address hbehind hend huncovered
    refine s.getElem?_of_uncovered nameHash (hentries ▸ hbehind) hend fun p hp hcovers => ?_
    have hl : p.1.layoutAt s.target.order s.tables p.2 ∈ (s.assembled nameHash).layouts := by
      rw [hlayouts]
      exact List.mem_map_of_mem hp
    refine huncovered _ hl ?_
    rw [FunctionLayout.Covers, Code.ScriptFunction.finish_layoutAt]
    exact hcovers
  · intro i l hl
    refine ⟨Script.crc_of_mem_layouts (List.mem_of_getElem? hl), .ofLayout l, ?_, rfl, rfl⟩
    have hread := Script.read_exports nameHash hsize
    rw [Script.exportCount_assembled] at hread
    have hslot := Script.slot_assembled nameHash (Section.order_eq_append s.target.revision) rfl
    have hbase : (s.exportsRecord nameHash).base = (s.assembled nameHash).header.exportOffset :=
      (congrArg Prod.fst hslot).symm
    change (readExports s.target (s.assembled nameHash).finalImage
      (s.assembled nameHash).layouts.length (s.exportsRecord nameHash).base)[i]? = _
    rw [hbase, hread, List.getElem?_map]
    exact congrArg (Option.map ExportEntry.ofLayout) hl

/-- A script of two functions. -/
def Script.twoFunctions : Script :=
  let f := (Code.ScriptFunction.create .legacyLittle "second" 3 2 0 0).addOp .endFunction
  { Script.jumpOverString with functions := (Script.jumpOverString.functions.push f.2).2 }

theorem function_regions_twoFunctions : ∃ c, Script.twoFunctions.compile = .ok c ∧
    c.image.size < 2 ^ 32 ∧ c.layouts.map (·.name) = ["main", "second"] ∧
    c.layouts.Pairwise (fun l m => l.finish + 8 ≤ m.address) ∧
    ∀ l ∈ c.layouts, crc32 (slice c.image l.address l.size) = l.crc := by
  obtain ⟨c, hcompile, hsize⟩ :=
    Script.exists_compiled (s := Script.twoFunctions) (by decide +kernel)
  obtain ⟨hfunctions, r, -, -, hapart, -, -, hcrc⟩ := function_regions hcompile hsize
  have hnames := congrArg (List.map (·.1)) hfunctions
  simp only [List.map_map, Function.comp_def] at hnames
  refine ⟨c, hcompile, hsize, hnames, hapart, fun l hl => ?_⟩
  obtain ⟨i, hi⟩ := List.getElem?_of_mem hl
  exact (hcrc i l hi).1

end GscAssembler
