import GscAssembler.Proofs.Image.Slots
import GscAssembler.Proofs.Reference.Index

/-!
# Images describe themselves

All numbers in an image shorter than 2 ^ 32 fit the fields they are written to: offsets and references
are addresses in the image, and counts were checked.  Loading the image therefore recovers everything
that was written: the header, the export entries, the rows of the tables with all references, and the
included scripts.
-/

namespace GscAssembler.Image

open Bytes (ByteOrder slice)
open Code (FunctionLayout ScriptFunction)
open Reference (Entry ImportKey Table Tables TableKind)

/-! ## Texts -/

/-- Texts are found at their addresses, which lie between the first and the end of the last. -/
theorem forall₂_textAddresses {image : Array UInt8} (texts : List String) :
    ∀ {start}, slice image start (texts.flatMap textBytes).length = texts.flatMap textBytes →
      List.Forall₂ (fun text address =>
          slice image address (Contents.textSize text) = textBytes text ∧
          start ≤ address ∧
          address + Contents.textSize text ≤ start + (texts.flatMap textBytes).length)
        texts (textAddresses start texts) := by
  induction texts with
  | nil => intro start _; exact .nil
  | cons text rest ih =>
      intro start h
      rw [List.flatMap_cons] at h ⊢
      have hfirst := slice_left h
      have hrest := ih (slice_right h)
      rw [length_textBytes] at hfirst hrest
      refine .cons ⟨hfirst, Nat.le_refl _, by simp only [List.length_append, length_textBytes]; omega⟩
        (hrest.imp fun other address hother => ⟨hother.1, by omega, ?_⟩)
      have := hother.2.2
      simp only [List.length_append, length_textBytes]
      omega

/-- Texts start one behind the other, from the first address up to the end of the last text. -/
theorem pairwise_textAddresses (texts : List String) :
    ∀ start, (textAddresses start texts).Pairwise (· < ·) ∧
      ∀ address ∈ textAddresses start texts,
        start ≤ address ∧ address < start + (texts.flatMap textBytes).length := by
  induction texts with
  | nil => intro start; simp [textAddresses]
  | cons text rest ih =>
      intro start
      obtain ⟨hpairwise, hspan⟩ := ih (start + Contents.textSize text)
      have hpos : 0 < Contents.textSize text := Nat.succ_pos _
      rw [List.flatMap_cons, List.length_append, length_textBytes]
      refine ⟨List.Pairwise.cons (fun address haddress => ?_) hpairwise, fun address haddress => ?_⟩
      · have := hspan address haddress
        omega
      · rcases List.mem_cons.mp haddress with rfl | haddress
        · omega
        · have := hspan address haddress
          omega

/-- Each string has the address at which its text is found. -/
theorem mem_withAddresses {entries : List (Entry String)} {e : Entry String} :
    ∀ {start}, e ∈ withAddresses start entries →
      ∃ address, e.address = some address ∧
        (e.value, address) ∈
          (entries.map (·.value)).zip (textAddresses start (entries.map (·.value))) := by
  induction entries with
  | nil => intro start he; simp [withAddresses] at he
  | cons first rest ih =>
      intro start he
      rcases List.mem_cons.mp he with rfl | he
      · exact ⟨start, rfl, by simp [textAddresses]⟩
      · obtain ⟨address, haddress, hmem⟩ := ih he
        exact ⟨address, haddress, by
          simp only [List.map_cons, textAddresses, List.zip_cons_cons]
          exact List.mem_cons_of_mem _ hmem⟩

/-- A string row can be read back, if its format has room for the address of the string. -/
theorem holds_stringRow {target : Target} {address : Nat} {row : List Nat}
    (hbig : target.revision = .legacy → target.isLittle = false → address ≤ countLimit)
    (haddress : address < 2 ^ 32) (hlength : row.length ≤ 250)
    (hreferences : ∀ address ∈ row, address < 256 ^ 4) :
    (stringFormat target).Holds (Assembly.stringRowHeader target address row.length, row) := by
  obtain ⟨revision, order⟩ := target
  have hlow : revision = .legacy → order = .big → address ≤ 65535 := by
    rintro rfl rfl
    exact hbig rfl rfl
  cases revision <;> cases order <;>
    refine ⟨rfl, fun field hfield => ?_, rfl, hreferences⟩ <;>
    simp only [Assembly.stringRowHeader, List.mem_cons, List.not_mem_nil, or_false] at hfield
  case legacy.big =>
    have := hlow rfl rfl
    rcases hfield with rfl | rfl | rfl <;> dsimp only <;> omega
  all_goals
    rcases hfield with rfl | rfl | rfl | rfl <;> dsimp only <;> omega

/-! ## The header -/

/-- The part of a header that a revision stores. -/
def Header.stored (h : Header) : Revision → Header
  | .legacy => { h with nameHash := 0, globalOffset := 0, globalCount := 0 }
  | .rev36 =>
      { h with
        nameOffset := 0, bytecodeOffset := 0, bytecodeSize := 0
        debugStringOffset := 0, debugStringCount := 0 }

theorem headerOfFields_fields (h : Header) (target : Target) :
    headerOfFields target.revision ((h.fields target).map (·.2)) = h.stored target.revision := by
  obtain ⟨revision, order⟩ := target
  cases revision <;>
    simp [headerOfFields, Header.fields, Header.legacyFields, Header.rev36Fields, Header.stored]

theorem map_fst_fields (h : Header) (target : Target) :
    (h.fields target).map (·.1) = headerWidths target := by
  obtain ⟨revision, order⟩ := target
  cases revision <;> rfl

theorem readWords_header {image : Array UInt8} {h : Header} {target : Target}
    (hstorable : Storable (h.fields target))
    (hslice : slice image 0 target.headerSize = h.encode target) :
    readWords target.order image 0 (headerWidths target) = (h.fields target).map (·.2) := by
  rw [Header.encode_eq] at hslice
  have hfields := slice_left hslice
  rw [length_fieldBytes] at hfields
  rw [← map_fst_fields h]
  exact readWords_of_slice hstorable hfields

/-- The first word tells the target. -/
theorem targetOf?_of_slice {image : Array UInt8} {target : Target}
    (h : slice image 0 8 = target.order.bytes 8 target.magic) : targetOf? image = some target := by
  unfold targetOf?
  rw [h]
  obtain ⟨revision, order⟩ := target
  cases revision <;> cases order <;> decide

theorem slice_magic {image : Array UInt8} {h : Header} {target : Target}
    (hslice : slice image 0 target.headerSize = h.encode target) :
    slice image 0 8 = target.order.bytes 8 target.magic := by
  have hsplit : h.encode target = target.order.bytes 8 target.magic ++
      (h.encode target).drop 8 := by
    rw [Header.encode_eq, Header.fields]
    simp [fieldBytes]
  rw [hsplit] at hslice
  have hfirst := slice_left hslice
  rwa [ByteOrder.length_bytes] at hfirst

end GscAssembler.Image

namespace GscAssembler.Image

open Bytes (slice)
open Code (FunctionLayout)

/-! ## Export entries -/

theorem storable_exportFields (target : Target) {layout : FunctionLayout}
    (h : layout.address < 2 ^ 32) : Storable (Assembly.exportFields target layout) := by
  have hcrc := layout.crc.toNat_lt
  have hhash := layout.hash.toNat_lt
  have hnamespace := layout.namespaceHash.toNat_lt
  have hparams := layout.params.toNat_lt
  have hflags := layout.flags.toNat_lt
  intro field hfield
  simp only [Assembly.exportFields, List.append_assoc, List.mem_append, List.mem_cons,
    List.not_mem_nil, or_false] at hfield
  rcases hfield with (rfl | rfl | rfl | rfl) | hfield | rfl | rfl | rfl <;> try (dsimp only; omega)
  split at hfield
  · simp at hfield
  · obtain rfl := List.mem_singleton.mp hfield
    exact hnamespace

theorem exportOfFields_exportFields (target : Target) (layout : FunctionLayout) :
    exportOfFields target.revision ((Assembly.exportFields target layout).map (·.2)) =
      .ofLayout layout := by
  obtain ⟨revision, order⟩ := target
  cases revision <;>
    simp [exportOfFields, Assembly.exportFields, ExportEntry.ofLayout, Target.isLegacy]

/-- Export entries are read back as they were written. -/
theorem readExports_of_slice {image : Array UInt8} {target : Target}
    {layouts : List FunctionLayout} (haddresses : ∀ layout ∈ layouts, layout.address < 2 ^ 32) :
    ∀ {position}, slice image position (layouts.flatMap (exportBytes target)).length =
        layouts.flatMap (exportBytes target) →
      readExports target image layouts.length position = layouts.map .ofLayout := by
  induction layouts with
  | nil => intro position _; rfl
  | cons layout rest ih =>
      intro position h
      rw [List.flatMap_cons] at h
      have hfields : slice image position (fieldsSize (Assembly.exportFields target layout)) =
          fieldBytes target.order (Assembly.exportFields target layout) := by
        have hfirst := slice_left h
        rwa [exportBytes, length_fieldBytes] at hfirst
      have hrest := slice_right h
      rw [length_exportBytes] at hrest
      have hwidths : exportWidths target.revision =
          (Assembly.exportFields target layout).map (·.1) := by
        obtain ⟨revision, order⟩ := target
        cases revision <;> rfl
      have hread := readWords_of_slice
        (storable_exportFields target (haddresses layout (List.mem_cons_self ..))) hfields
      rw [List.length_cons, readExports, hwidths, hread, exportOfFields_exportFields,
        ih (fun other hother => haddresses other (List.mem_cons_of_mem _ hother)) hrest]
      rfl

/-! ## The addresses of strings -/

namespace Assembly

theorem places_foldl_committed {sections : List Section} (h : .strings ∉ sections) :
    ∀ a : Assembly, (sections.foldl committed a).tables.strings.places =
      a.tables.strings.places := by
  induction sections with
  | nil => intro a; rfl
  | cons s rest ih =>
      intro a
      rw [List.foldl_cons, ih fun hrest => h (List.mem_cons_of_mem _ hrest)]
      cases s with
      | strings => exact absurd (List.mem_cons_self ..) h
      | exports => exact Reference.Tables.places_foldl_record _ _
      | _ => rfl

theorem strings_committed (a : Assembly) :
    (a.committed .strings).tables.strings = a.stringsAt a.textsStart := by
  simp only [committed, filled, textsStart]
  cases a.target.revision <;> rfl

/-- The texts of the strings end their section. -/
theorem sectionBytes_strings (a : Assembly) :
    ∃ rows, a.sectionBytes .strings = rows ++ a.tables.strings.values.flatMap textBytes ∧
      a.textsStart = a.base + rows.length := by
  unfold sectionBytes textsStart
  cases hrevision : a.target.revision with
  | legacy => exact ⟨[], rfl, rfl⟩
  | rev36 =>
      refine ⟨_, rfl, ?_⟩
      rw [length_stringRowsBytes, rowsSize_stringsAt]
      rfl

end Assembly

end GscAssembler.Image

namespace GscAssembler.Script

open Bytes (slice)
open Code (ScriptFunction)
open Image (Assembly Contents Header HeaderSlot Section textBytes)
open Reference (Entry Table TableKind TableReference Tables)

section Bounds

variable {s : Script} (nameHash : UInt64)

theorem functionsEnd_le_size :
    Code.functionsEnd (s.beforeCode nameHash).entriesEnd (s.beforeCode nameHash).functions ≤
      (s.assembled nameHash).finalImage.size := by
  rw [← Assembly.length_exports]
  exact base_le_size nameHash (Section.order_eq_append s.target.revision)

/-- References are addresses in the image. -/
theorem reference_lt_size {r : TableReference}
    (hr : r ∈ Code.referencesFrom (s.placed nameHash)) :
    r.address < (s.assembled nameHash).finalImage.size := by
  obtain ⟨p, hp, hr⟩ := List.mem_flatMap.mp hr
  obtain ⟨q, hq, hr⟩ := List.mem_filterMap.mp hr
  obtain ⟨-, -, hend⟩ := Code.span_of_mem_placeFunctions hp
  obtain ⟨-, -, hfinish⟩ := Code.span_of_mem_placedFrom hq
  have hin := (Code.Instruction.reference_mem_span hr p.1.locals.size).2
  rw [← (Code.finish_of_mem_placedFrom hq).1] at hin
  have hsize := s.functionsEnd_le_size nameHash
  have hendAt : q.finish ≤ p.1.endAt p.2 := hfinish
  omega

theorem references_lt_size {kind : TableKind} {i : Nat} {references : List Nat}
    (h : (s.assembled nameHash).tables.referencesAt? kind i = some references) :
    ∀ address ∈ references, address < (s.assembled nameHash).finalImage.size := by
  have hvalues : (s.assembled nameHash).tables.SameValues s.tables :=
    (Assembly.sameValues_foldl_committed _ _).trans (Tables.sameValues_clearReferences _)
  have hi : i < s.tables.sizeOf kind := by
    rw [← hvalues.sizeOf_eq, ← Tables.isSome_referencesAt?, h]
    rfl
  rw [referencesAt?_assembled s nameHash kind hi] at h
  obtain rfl := Option.some.inj h
  intro address haddress
  obtain ⟨r, hr, rfl⟩ := List.mem_map.mp haddress
  exact s.reference_lt_size nameHash (List.mem_filter.mp hr).1

theorem layout_lt_size {layout : Code.FunctionLayout}
    (h : layout ∈ (s.assembled nameHash).layouts) :
    layout.address ≤ (s.assembled nameHash).finalImage.size := by
  rw [layouts_assembled] at h
  obtain ⟨p, hp, rfl⟩ := List.mem_map.mp h
  obtain ⟨-, -, hend⟩ := Code.span_of_mem_placeFunctions hp
  have hsize := s.functionsEnd_le_size nameHash
  have := p.1.le_endAt p.2
  change p.2 ≤ _
  omega

theorem bytecode_assembled :
    (s.assembled nameHash).header.bytecodeOffset = (s.beforeCode nameHash).codeStart ∧
      (s.assembled nameHash).header.bytecodeOffset + (s.assembled nameHash).header.bytecodeSize ≤
        (s.assembled nameHash).finalImage.size := by
  have hkeep : ∀ (sections : List Section) (a : Assembly), .exports ∉ sections →
      (sections.foldl Assembly.committed a).header.bytecodeOffset = a.header.bytecodeOffset ∧
        (sections.foldl Assembly.committed a).header.bytecodeSize = a.header.bytecodeSize := by
    intro sections
    induction sections with
    | nil => intro a _; exact ⟨rfl, rfl⟩
    | cons k rest ih =>
        intro a hnotMem
        obtain ⟨hoffset, hsize⟩ := ih (a.committed k) fun h => hnotMem (List.mem_cons_of_mem _ h)
        rw [List.foldl_cons, hoffset, hsize]
        cases k with
        | exports => exact absurd (List.mem_cons_self ..) hnotMem
        | strings =>
            simp only [Assembly.committed, Assembly.filled]
            split <;> exact ⟨rfl, rfl⟩
        | _ => exact ⟨rfl, rfl⟩
  obtain ⟨hoffset, hsize⟩ := hkeep (Section.afterExports s.target.revision)
    ((s.beforeCode nameHash).committed .exports)
    (Section.exports_notMem_afterExports s.target.revision)
  have hend := s.functionsEnd_le_size nameHash
  have hstart := (s.beforeCode nameHash).codeStart_le.2
  rw [← assembled_eq] at hoffset hsize
  rw [hoffset, hsize]
  refine ⟨rfl, ?_⟩
  simp only [Assembly.committed, Assembly.filled]
  omega

end Bounds

end GscAssembler.Script

namespace GscAssembler.Script

open Bytes (slice)
open Image (Assembly Contents Header HeaderSlot Loaded RowFormat Section Storable keyedRows textBytes)
open Reference (Entry Table TableKind Tables)

section Recovery

variable {s : Script} (nameHash : UInt64)
  (hfits : (s.startAssembly nameHash).FitsAll (Section.order s.target.revision))
  (hsize : (s.assembled nameHash).finalImage.size < 2 ^ 32)

/-- On the legacy machine, the name follows the header. -/
theorem nameOffset_assembled (hrevision : s.target.revision = .legacy) :
    (s.assembled nameHash).header.nameOffset = 0x50 := by
  have horder : Section.order s.target.revision = [.header] ++ .name ::
      [.strings, .exports, .imports, .includes, .stringFixups, .debugStrings] := by
    rw [hrevision]; rfl
  have hslot := slot_assembled nameHash horder rfl
  have hbase : ([Section.header].foldl Assembly.committed (s.startAssembly nameHash)).base = 0x50 := by
    have hlength : ((s.startAssembly nameHash).sectionBytes .header).length = 0x50 := by
      change (List.replicate s.target.headerSize (0 : UInt8)).length = 0x50
      rw [List.length_replicate, Target.headerSize, hrevision]
    have hstart : (s.startAssembly nameHash).base = 0 := rfl
    rw [List.foldl_cons, List.foldl_nil, Assembly.base_committed, Assembly.sectionGap, hlength,
      hstart]
    decide
  rw [hbase] at hslot
  exact congrArg Prod.fst hslot

include hfits hsize in
/-- All fields of the finished header fit their widths. -/
theorem storable_header : Storable ((s.assembled nameHash).header.fields s.target) := by
  have hslots := slot_assembled_le nameHash hfits
  have hstrings := hslots .strings
  have hexports := hslots .exports
  have himports := hslots .imports
  have hincludes := hslots .includes
  have hdebug := hslots .debugStrings
  have hglobals := hslots .globals
  obtain ⟨hbytecode, hcode⟩ := s.bytecode_assembled nameHash
  have hchecksum := (s.assembled nameHash).header.checksum.toNat_lt
  have hnameHash := (s.assembled nameHash).header.nameHash.toNat_lt
  simp only [Header.slot, HeaderSlot.limit, reduceCtorEq, false_and, if_false, true_and,
    Image.countLimit, Image.legacyIncludeLimit] at hstrings hexports himports hincludes hdebug hglobals
  intro field hfield
  cases hrevision : s.target.revision with
  | legacy =>
      have hname := nameOffset_assembled nameHash hrevision
      simp only [hrevision, if_true] at hincludes
      simp only [Header.fields, hrevision, Header.legacyFields, List.mem_cons, List.not_mem_nil,
        or_false, Target.magic, Target.headerSize] at hfield
      cases hlittle : s.target.isLittle <;> simp only [hlittle, if_true, Bool.false_eq_true,
        if_false] at hfield <;> rcases hfield with rfl | rfl | rfl | rfl | rfl | rfl | rfl | rfl |
        rfl | rfl | rfl | rfl | rfl | rfl | rfl | rfl | rfl | rfl | rfl | rfl | rfl | rfl <;>
        dsimp only <;> omega
  | rev36 =>
      simp only [hrevision, reduceCtorEq, if_false] at hincludes
      simp only [Header.fields, hrevision, Header.rev36Fields, List.mem_cons, List.not_mem_nil,
        or_false, Target.magic, Target.headerSize] at hfield
      rcases hfield with rfl | rfl | rfl | rfl | rfl | rfl | rfl | rfl | rfl | rfl | rfl | rfl |
        rfl | rfl | rfl | rfl | rfl | rfl | rfl | rfl | rfl | rfl | rfl | rfl | rfl | rfl <;>
        dsimp only <;> omega

/-- The encoded header stands at the start of the finished image. -/
theorem slice_header_assembled :
    slice (s.assembled nameHash).finalImage 0 s.target.headerSize =
      (s.assembled nameHash).header.encode s.target := by
  have htarget : (s.assembled nameHash).target = s.target :=
    (Assembly.sameScript_foldl_committed _ (s.startAssembly nameHash)).target
  have hslice := Assembly.slice_header (s.ready_assembled nameHash)
    (s.headerSize_le_base_assembled nameHash)
  rwa [htarget] at hslice

/-- Where the strings have their turn, and what comes of their texts. -/
theorem places_assembled : ∃ before after : List Section,
    Section.order s.target.revision = before ++ .strings :: after ∧
      (s.assembled nameHash).tables.strings.places =
        ((before.foldl Assembly.committed (s.startAssembly nameHash)).stringsAt
          (before.foldl Assembly.committed (s.startAssembly nameHash)).textsStart).places := by
  have hmem : Section.strings ∈ Section.order s.target.revision := by
    cases s.target.revision <;> decide
  obtain ⟨before, after, horder⟩ := List.append_of_mem hmem
  have hnodup := horder ▸ Section.nodup_order s.target.revision
  have hafter : Section.strings ∉ after :=
    (List.nodup_cons.mp (List.nodup_append.mp hnodup).2.1).1
  refine ⟨before, after, horder, ?_⟩
  rw [assembled, horder, List.foldl_append, List.foldl_cons,
    Assembly.places_foldl_committed hafter, Assembly.strings_committed]

include hfits in
/-- Each string of a finished image has the address at which its text is found. -/
theorem string_assembled {e : Entry String}
    (he : e ∈ (s.assembled nameHash).tables.strings.entries.toList) :
    ∃ address, e.address = some address ∧
      slice (s.assembled nameHash).finalImage address (Contents.textSize e.value) =
        textBytes e.value ∧
      address < (s.assembled nameHash).finalImage.size ∧
      (s.target.revision = .legacy → s.target.isLittle = false → address ≤ Image.countLimit) := by
  obtain ⟨before, after, horder, hplaces⟩ := s.places_assembled nameHash
  have hslice := slice_assembled nameHash horder (by decide)
  have hend := base_le_size nameHash horder
  have hfit : (before.foldl Assembly.committed (s.startAssembly nameHash)).Fits .strings := by
    rw [horder, Assembly.fitsAll_append] at hfits
    exact hfits.2.1
  have htarget := (Assembly.sameScript_foldl_committed before (s.startAssembly nameHash)).target
  generalize before.foldl Assembly.committed (s.startAssembly nameHash) = a at *
  obtain ⟨rows, hbytes, hstart⟩ := a.sectionBytes_strings
  rw [hbytes] at hslice hend
  have htexts := Image.slice_right hslice
  rw [← hstart] at htexts
  have hmem : (e.value, e.address) ∈ (a.stringsAt a.textsStart).places := by
    rw [← hplaces]
    exact List.mem_map_of_mem he
  obtain ⟨placed, hplaced, heq⟩ := List.mem_map.mp hmem
  obtain ⟨address, haddress, hzip⟩ := Image.mem_withAddresses hplaced
  simp only [Prod.mk.injEq] at heq
  obtain ⟨hvalue, hsame⟩ := heq
  rw [hvalue] at hzip
  obtain ⟨hread, -, hle⟩ := List.forall₂_zip (Image.forall₂_textAddresses _ htexts) hzip
  have hpos : 0 < Contents.textSize e.value := Nat.succ_pos _
  refine ⟨address, hsame ▸ haddress, hread, ?_, ?_⟩
  · rw [List.length_append] at hend
    change address + _ ≤ a.textsStart + (a.tables.strings.values.flatMap textBytes).length at hle
    omega
  · intro hlegacy hbig
    have hrevision : a.target.revision = .legacy := by rw [htarget]; exact hlegacy
    have hlittle : a.target.isLittle = false := by rw [htarget]; exact hbig
    simp only [Assembly.Fits, hrevision, hlittle, Bool.false_eq_true, false_or] at hfit
    simp only [Assembly.textsStart, hrevision] at hzip
    exact hfit address (List.of_mem_zip hzip).2

/-- Different strings of a finished image have different addresses. -/
theorem nodup_addresses :
    ((s.assembled nameHash).tables.strings.entries.toList.map fun e => e.address.getD 0).Nodup := by
  obtain ⟨before, after, -, hplaces⟩ := s.places_assembled nameHash
  generalize before.foldl Assembly.committed (s.startAssembly nameHash) = a at hplaces
  have hmap : (s.assembled nameHash).tables.strings.entries.toList.map
      (fun e => e.address.getD 0) =
        Image.textAddresses a.textsStart a.tables.strings.values := by
    have hsecond := congrArg (List.map fun place : String × Option Nat => place.2.getD 0) hplaces
    have haddresses := congrArg (List.map fun address : Option Nat => address.getD 0)
      (Image.map_address_withAddresses a.tables.strings.entries.toList a.textsStart)
    simp only [Table.places, List.map_map, Function.comp_def] at hsecond
    simp only [List.map_map, Function.comp_def, Option.getD_some, List.map_id'] at haddresses
    rw [hsecond]
    exact haddresses
  rw [hmap]
  exact (Image.pairwise_textAddresses _ _).1.imp Nat.ne_of_lt

include hsize in
theorem row_lt (kind : TableKind) {i : Nat} {α : Type} {e : Entry α}
    (he : (s.assembled nameHash).tables.referencesAt? kind i = some e.references.toList)
    {row : List Nat} (hrow : row ∈ e.rows) : ∀ address ∈ row, address < 256 ^ 4 := by
  intro address haddress
  have hmem : address ∈ e.references.toList := by
    rw [← e.flatten_rows]
    exact List.mem_flatten_of_mem hrow haddress
  have := references_lt_size nameHash he address hmem
  omega

/-- The tables do not change any more when rows are written. -/
theorem tables_of_countsReferences {before after : List Section} {k : Section}
    (horder : Section.order s.target.revision = before ++ k :: after)
    (hcounts : k.countsReferences s.target.revision = true) :
    (s.assembled nameHash).tables.imports =
        (before.foldl Assembly.committed (s.startAssembly nameHash)).tables.imports ∧
      (s.assembled nameHash).tables.globals =
        (before.foldl Assembly.committed (s.startAssembly nameHash)).tables.globals ∧
      (s.assembled nameHash).tables.debug =
        (before.foldl Assembly.committed (s.startAssembly nameHash)).tables.debug := by
  have hpairwise := horder ▸ Section.pairwise_order s.target.revision
  have hnotMem : Section.exports ∉ k :: after := by
    intro hmem
    rcases List.mem_cons.mp hmem with rfl | hmem
    · simp [Section.countsReferences] at hcounts
    · have := List.rel_of_pairwise_cons (List.pairwise_append.mp hpairwise).2.1 hmem rfl
      rw [this] at hcounts
      cases hcounts
  rw [assembled, horder, List.foldl_append]
  exact Assembly.tables_foldl_committed hnotMem _

/-- What a section leaves in the finished image and header, seen from the assembly in which it had its
turn. -/
theorem exists_stage {k : Section} (hk : k ∈ Section.order s.target.revision) (hne : k ≠ .header) :
    ∃ a : Assembly, (s.startAssembly nameHash).SameScript a ∧
      (∀ slot, k.slot s.target.revision = some slot →
        (s.assembled nameHash).header.slot slot = (a.base, a.slotCount k)) ∧
      slice (s.assembled nameHash).finalImage a.base (a.sectionBytes k).length =
        a.sectionBytes k ∧
      a.base + (a.sectionBytes k).length ≤ (s.assembled nameHash).finalImage.size ∧
      (k.countsReferences s.target.revision = true →
        (s.assembled nameHash).tables.imports = a.tables.imports ∧
          (s.assembled nameHash).tables.globals = a.tables.globals ∧
          (s.assembled nameHash).tables.debug = a.tables.debug) := by
  obtain ⟨before, after, horder⟩ := List.append_of_mem hk
  exact ⟨_, Assembly.sameScript_foldl_committed before _,
    fun slot hslot => slot_assembled nameHash horder hslot, slice_assembled nameHash horder hne,
    base_le_size nameHash horder, tables_of_countsReferences nameHash horder⟩

include hsize in
/-- The import rows are read back. -/
theorem read_imports :
    (Image.readRows s.target.order (s.assembled nameHash).finalImage Image.importFormat
        (s.assembled nameHash).header.importCount (s.assembled nameHash).header.importOffset).map
      (fun row => (Image.importOfFields row.1, row.2)) =
        keyedRows (·.value) (s.assembled nameHash).tables.imports := by
  have hmem : Section.imports ∈ Section.order s.target.revision := by
    cases s.target.revision <;> decide
  obtain ⟨a, hsame, hslot, hslice, -, htables⟩ := exists_stage nameHash hmem (by decide)
  have himports := (htables rfl).1
  obtain ⟨hoffset, hcount⟩ := Prod.mk.inj (hslot .imports rfl)
  have htarget : a.target = s.target := hsame.target
  simp only [Assembly.slotCount, ← himports] at hcount
  simp only [Assembly.sectionBytes, ← himports, htarget] at hslice
  rw [hoffset, hcount]
  refine Image.readRows_of_tableBytes (·.value) Image.importOfFields ?_ ?_ hslice
  · intro e he row hrow
    obtain ⟨i, hi⟩ := Table.exists_referencesAt?_of_mem he
    have hlength : row.length ≤ 250 := (Entry.mem_rows hrow).2
    have hfunction := e.value.function.toNat_lt
    have hnamespace := e.value.namespaceHash.toNat_lt
    have hparams := e.value.params.toNat_lt
    have hflags := e.value.flags.toNat_lt
    refine ⟨rfl, fun field hfield => ?_, rfl, row_lt nameHash hsize .imports hi hrow⟩
    simp only [Assembly.importRowHeader, List.mem_cons, List.not_mem_nil, or_false] at hfield
    rcases hfield with rfl | rfl | rfl | rfl | rfl <;> dsimp only <;> omega
  · intro e _ count
    simp [Assembly.importRowHeader, Image.importOfFields]

include hsize in
/-- The developer string rows are read back, on the legacy machine. -/
theorem read_debug (hrevision : s.target.revision = .legacy) :
    (Image.readRows s.target.order (s.assembled nameHash).finalImage Image.debugFormat
        (s.assembled nameHash).header.debugStringCount
        (s.assembled nameHash).header.debugStringOffset).map
      (fun row => (UInt32.ofNat (row.1.getD 0 0), row.2)) =
        keyedRows (·.value) (s.assembled nameHash).tables.debug := by
  have hmem : Section.debugStrings ∈ Section.order s.target.revision := by
    rw [hrevision]; decide
  obtain ⟨a, hsame, hslot, hslice, -, htables⟩ := exists_stage nameHash hmem (by decide)
  have hdebug := (htables rfl).2.2
  obtain ⟨hoffset, hcount⟩ := Prod.mk.inj (hslot .debugStrings rfl)
  have htarget : a.target = s.target := hsame.target
  simp only [Assembly.slotCount, ← hdebug] at hcount
  simp only [Assembly.sectionBytes, ← hdebug, htarget] at hslice
  rw [hoffset, hcount]
  refine Image.readRows_of_tableBytes (·.value) (fun fields => UInt32.ofNat (fields.getD 0 0))
    ?_ ?_ hslice
  · intro e he row hrow
    obtain ⟨i, hi⟩ := Table.exists_referencesAt?_of_mem he
    have hlength : row.length ≤ 250 := (Entry.mem_rows hrow).2
    have hhash := e.value.toNat_lt
    refine ⟨rfl, fun field hfield => ?_, rfl, row_lt nameHash hsize .debug hi hrow⟩
    simp only [Assembly.debugRowHeader, List.mem_cons, List.not_mem_nil, or_false] at hfield
    rcases hfield with rfl | rfl | rfl | rfl <;> dsimp only <;> omega
  · intro e _ count
    simp [Assembly.debugRowHeader]

include hsize in
/-- The rows of the global objects are read back, on the newer machine. -/
theorem read_globals (hrevision : s.target.revision = .rev36) :
    (Image.readRows s.target.order (s.assembled nameHash).finalImage Image.globalFormat
        (s.assembled nameHash).header.globalCount
        (s.assembled nameHash).header.globalOffset).map
      (fun row => (UInt32.ofNat (row.1.getD 0 0), row.2)) =
        keyedRows (·.value) (s.assembled nameHash).tables.globals := by
  have hmem : Section.globals ∈ Section.order s.target.revision := by
    rw [hrevision]; decide
  obtain ⟨a, hsame, hslot, hslice, -, htables⟩ := exists_stage nameHash hmem (by decide)
  have hglobals := (htables rfl).2.1
  obtain ⟨hoffset, hcount⟩ := Prod.mk.inj (hslot .globals rfl)
  have htarget : a.target = s.target := hsame.target
  simp only [Assembly.slotCount, ← hglobals] at hcount
  simp only [Assembly.sectionBytes, ← hglobals, htarget] at hslice
  rw [hoffset, hcount]
  refine Image.readRows_of_tableBytes (·.value) (fun fields => UInt32.ofNat (fields.getD 0 0))
    ?_ ?_ hslice
  · intro e he row hrow
    obtain ⟨i, hi⟩ := Table.exists_referencesAt?_of_mem he
    have hlength : row.length ≤ 250 := (Entry.mem_rows hrow).2
    have hhash := e.value.toNat_lt
    refine ⟨rfl, fun field hfield => ?_, rfl, row_lt nameHash hsize .globals hi hrow⟩
    simp only [Assembly.globalRowHeader, List.mem_cons, List.not_mem_nil, or_false] at hfield
    rcases hfield with rfl | rfl <;> dsimp only <;> omega
  · intro e _ count
    simp [Assembly.globalRowHeader]

/-- The header leads to the string rows of the finished table. -/
theorem stringRows_assembled :
    (s.assembled nameHash).header.stringCount = (s.assembled nameHash).tables.strings.rowCount ∧
      slice (s.assembled nameHash).finalImage (s.assembled nameHash).header.stringOffset
          (Image.stringRowsBytes s.target (s.assembled nameHash).tables.strings).length =
        Image.stringRowsBytes s.target (s.assembled nameHash).tables.strings := by
  cases hrevision : s.target.revision with
  | legacy =>
      obtain ⟨before, horder⟩ : ∃ before, Section.order s.target.revision =
          before ++ .stringFixups :: [.debugStrings] :=
        ⟨[.header, .name, .strings, .exports, .imports, .includes], by rw [hrevision]; rfl⟩
      have hslot := slot_assembled nameHash horder rfl
      have hslice := slice_assembled nameHash horder (by decide)
      have hstrings : (s.assembled nameHash).tables.strings =
          (before.foldl Assembly.committed (s.startAssembly nameHash)).tables.strings := by
        rw [assembled, horder, List.foldl_append]
        exact Assembly.strings_foldl_committed (by decide) (by decide) _
      obtain ⟨hoffset, hcount⟩ := Prod.mk.inj hslot
      rw [Assembly.sectionBytes, ← hstrings,
        (Assembly.sameScript_foldl_committed _ (s.startAssembly nameHash)).target] at hslice
      rw [Assembly.slotCount, ← hstrings] at hcount
      rw [hoffset]
      exact ⟨hcount, hslice⟩
  | rev36 =>
      obtain ⟨before, horder⟩ : ∃ before, Section.order s.target.revision =
          before ++ .strings :: [.includes, .globals] :=
        ⟨[.header, .exports, .imports], by rw [hrevision]; rfl⟩
      have hslot := slot_assembled nameHash horder
        (by rw [hrevision]; rfl : Section.slot _ _ = some .strings)
      have hslice := slice_assembled nameHash horder (by decide)
      have hsame := Assembly.sameScript_foldl_committed before (s.startAssembly nameHash)
      have hstrings : (s.assembled nameHash).tables.strings =
          ((before.foldl Assembly.committed (s.startAssembly nameHash)).committed
            .strings).tables.strings := by
        rw [assembled, horder, List.foldl_append, List.foldl_cons]
        exact Assembly.strings_foldl_committed (by decide) (by decide) _
      generalize before.foldl Assembly.committed (s.startAssembly nameHash) = a
        at hslot hslice hsame hstrings
      have htarget : a.target = s.target := hsame.target
      obtain ⟨hoffset, hcount⟩ := Prod.mk.inj hslot
      rw [Assembly.strings_committed] at hstrings
      simp only [Assembly.sectionBytes, htarget, hrevision] at hslice
      have hrows := Image.slice_left hslice
      rw [← hstrings] at hrows
      rw [hoffset]
      refine ⟨?_, hrows⟩
      rw [hstrings, a.rowCount_stringsAt]
      exact hcount

include hfits hsize in
/-- The string rows are read back, each with the address of its string. -/
theorem read_strings :
    (Image.readRows s.target.order (s.assembled nameHash).finalImage (Image.stringFormat s.target)
        (s.assembled nameHash).header.stringCount
        (s.assembled nameHash).header.stringOffset).map (fun row => (row.1.getD 0 0, row.2)) =
      keyedRows (fun e => e.address.getD 0) (s.assembled nameHash).tables.strings := by
  obtain ⟨hcount, hslice⟩ := s.stringRows_assembled nameHash
  rw [hcount]
  refine Image.readRows_of_tableBytes (fun e => e.address.getD 0) (fun fields => fields.getD 0 0)
    ?_ ?_ hslice
  · intro e he row hrow
    obtain ⟨i, hi⟩ := Table.exists_referencesAt?_of_mem he
    obtain ⟨address, haddress, -, hlt, hbig⟩ := string_assembled nameHash hfits he
    have hlength : row.length ≤ 250 := (Entry.mem_rows hrow).2
    rw [haddress, Option.getD_some]
    exact Image.holds_stringRow hbig (by omega) hlength (row_lt nameHash hsize .strings hi hrow)
  · intro e _ count
    unfold Assembly.stringRowHeader
    split <;> rfl

/-- On the legacy machine, the name of the script is found at its address. -/
theorem slice_name_assembled (hrevision : s.target.revision = .legacy) :
    slice (s.assembled nameHash).finalImage (s.assembled nameHash).header.nameOffset
        (Contents.textSize s.settings.scriptName) = textBytes s.settings.scriptName := by
  have hmem : Section.name ∈ Section.order s.target.revision := by rw [hrevision]; decide
  obtain ⟨a, hsame, hslot, hslice, -, -⟩ := exists_stage nameHash hmem (by decide)
  have hname : a.scriptName = s.settings.scriptName := hsame.scriptName
  have hoffset : (s.assembled nameHash).header.nameOffset = a.base :=
    congrArg Prod.fst (hslot .name rfl)
  rw [Assembly.sectionBytes, hname, Image.length_textBytes] at hslice
  rw [hoffset, hslice]

theorem exportCount_assembled :
    (s.assembled nameHash).header.exportCount = (s.assembled nameHash).layouts.length := by
  have hslot := slot_assembled nameHash (Section.order_eq_append s.target.revision) rfl
  rw [← beforeCode] at hslot
  simp only [Header.slot, Prod.mk.injEq] at hslot
  rw [hslot.2, Assembly.slotCount, ← Assembly.length_nextLayouts, ← layouts_eq_nextLayouts]

include hsize in
/-- The export entries are read back. -/
theorem read_exports :
    Image.readExports s.target (s.assembled nameHash).finalImage
        (s.assembled nameHash).header.exportCount (s.assembled nameHash).header.exportOffset =
      (s.assembled nameHash).layouts.map .ofLayout := by
  have horder := Section.order_eq_append s.target.revision
  have hslot := slot_assembled nameHash horder rfl
  have hslice := slice_assembled nameHash horder (by decide)
  rw [← beforeCode] at hslice hslot
  simp only [Header.slot, Prod.mk.injEq] at hslot
  rw [Assembly.sectionBytes, ← layouts_eq_nextLayouts, target_beforeCode] at hslice
  rw [hslot.1, exportCount_assembled]
  refine Image.readExports_of_slice (fun layout hlayout => ?_) (Image.slice_left hslice)
  have := layout_lt_size nameHash hlayout
  omega

/-- On the legacy machine, each included script has the address at which its path is found. -/
theorem read_legacyIncludes (hsize : (s.assembled nameHash).finalImage.size < 2 ^ 32)
    (hrevision : s.target.revision = .legacy) :
    List.Forall₂ (fun path address =>
        slice (s.assembled nameHash).finalImage address (Contents.textSize path) = textBytes path)
      s.includes.toList
      (Image.readWords s.target.order (s.assembled nameHash).finalImage
        (s.assembled nameHash).header.includeOffset
        (List.replicate (s.assembled nameHash).header.includeCount 4)) := by
  have hmem : Section.includes ∈ Section.order s.target.revision := by rw [hrevision]; decide
  obtain ⟨a, hsame, hslot, hslice, hend, -⟩ := exists_stage nameHash hmem (by decide)
  obtain ⟨hoffset, hcount⟩ := Prod.mk.inj (hslot .includes rfl)
  have htarget : a.target = s.target := hsame.target
  have hincludes : a.includes = s.includes.toList := hsame.includes
  simp only [Assembly.slotCount, hincludes] at hcount
  simp only [Assembly.sectionBytes, htarget, hincludes, Image.includesBytes, hrevision]
    at hslice hend
  have hpointers : ((Image.textAddresses (a.base + s.includes.toList.length * 4)
      s.includes.toList).flatMap (s.target.order.bytes 4)).length = s.includes.toList.length * 4 := by
    simp [List.length_flatMap, Image.length_textAddresses]
  have htexts := Image.slice_right hslice
  rw [hpointers] at htexts
  have hplaces := Image.forall₂_textAddresses _ htexts
  have hread := Image.readWords_replicate (fun address haddress => ?_) (Image.slice_left hslice)
  · rw [Image.length_textAddresses] at hread
    rw [hoffset, hcount, hread]
    exact hplaces.imp fun path address hpath => hpath.1
  · have hspan := ((Image.pairwise_textAddresses _ _).2 address haddress).2
    rw [List.length_append, hpointers] at hend
    omega

/-- On the newer machine, the included scripts are the hashes of their paths. -/
theorem read_rev36Includes (hrevision : s.target.revision = .rev36) :
    Image.readWords s.target.order (s.assembled nameHash).finalImage
        (s.assembled nameHash).header.includeOffset
        (List.replicate (s.assembled nameHash).header.includeCount 8) =
      s.includes.toList.map fun path => (Name.pathHash path).toNat := by
  have hmem : Section.includes ∈ Section.order s.target.revision := by rw [hrevision]; decide
  obtain ⟨a, hsame, hslot, hslice, -, -⟩ := exists_stage nameHash hmem (by decide)
  obtain ⟨hoffset, hcount⟩ := Prod.mk.inj (hslot .includes rfl)
  have htarget : a.target = s.target := hsame.target
  have hincludes : a.includes = s.includes.toList := hsame.includes
  simp only [Assembly.slotCount, hincludes] at hcount
  simp only [Assembly.sectionBytes, htarget, hincludes, Image.includesBytes, hrevision] at hslice
  have hvalues : s.includes.toList.flatMap
      (fun path => s.target.order.bytes 8 (Name.pathHash path).toNat) =
        (s.includes.toList.map fun path => (Name.pathHash path).toNat).flatMap
          (s.target.order.bytes 8) := by
    rw [List.flatMap_map]
  rw [hvalues] at hslice
  have hread := Image.readWords_replicate (fun value hvalue => ?_) hslice
  · rw [List.length_map] at hread
    rw [hoffset, hcount, hread]
  · obtain ⟨path, -, rfl⟩ := List.mem_map.mp hvalue
    exact (Name.pathHash path).toNat_lt

end Recovery

end GscAssembler.Script

namespace GscAssembler

open Bytes (slice)
open Image (Contents ExportEntry joinRows keyedRows load textBytes)
open Reference (Entry Table)

/-- What the rows of a section say about a table: they list, entry by entry, all references of each,
in rows of which only the last of an entry may hold fewer than 250, so that joining the rows of one
key gives back the entries that have references. -/
structure Recovers {α β : Type} [Ord α] [DecidableEq β] (key : Entry α → β) (t : Table α)
    (rows : List (β × List Nat)) : Prop where
  entries : rows = keyedRows key t
  length : ∀ row ∈ rows, 1 ≤ row.2.length ∧ row.2.length ≤ 250
  full : ∀ e ∈ t.entries.toList, ∀ row ∈ e.rows.dropLast, row.length = 250
  joined : joinRows rows = (t.entries.toList.filter fun e => !e.references.isEmpty).map
    fun e => (key e, e.references.toList)

theorem recovers_keyedRows {α β : Type} [Ord α] [DecidableEq β] {key : Entry α → β} {t : Table α}
    (hkeys : (t.entries.toList.map key).Nodup) : Recovers key t (keyedRows key t) where
  entries := rfl
  length row hrow := by
    obtain ⟨e, -, hrow⟩ := List.mem_flatMap.mp hrow
    obtain ⟨references, hreferences, rfl⟩ := List.mem_map.mp hrow
    exact Entry.mem_rows hreferences
  full _ _ _ hrow := Entry.length_of_mem_dropLast_rows hrow
  joined := Image.joinRows_keyedRows hkeys

namespace Script

variable {s : Script} (nameHash : UInt64)
  (hfits : (s.startAssembly nameHash).FitsAll (Image.Section.order s.target.revision))
  (hsize : (s.assembled nameHash).finalImage.size < 2 ^ 32)

include hfits hsize

/-- Loading a finished image recovers what was written. -/
theorem load_assembled : load (s.assembled nameHash).finalImage = some {
    target := s.target
    header := (s.assembled nameHash).header.stored s.target.revision
    exports := (s.assembled nameHash).layouts.map .ofLayout
    imports := keyedRows (·.value) (s.assembled nameHash).tables.imports
    strings := keyedRows (fun e => e.address.getD 0) (s.assembled nameHash).tables.strings
    debug := match s.target.revision with
      | .legacy => keyedRows (·.value) (s.assembled nameHash).tables.debug
      | .rev36 => []
    globals := match s.target.revision with
      | .legacy => []
      | .rev36 => keyedRows (·.value) (s.assembled nameHash).tables.globals
    includes := Image.readWords s.target.order (s.assembled nameHash).finalImage
      (s.assembled nameHash).header.includeOffset (List.replicate
        (s.assembled nameHash).header.includeCount (if s.target.isLegacy then 4 else 8)) } := by
  have hheader := slice_header_assembled (s := s) nameHash
  have hfields := Image.readWords_header (storable_header nameHash hfits hsize) hheader
  have htarget := Image.targetOf?_of_slice (Image.slice_magic hheader)
  have hexports := read_exports nameHash hsize
  have himports := read_imports nameHash hsize
  have hstrings := read_strings nameHash hfits hsize
  rw [load, htarget, Option.map_some]
  simp only [hfields, Image.headerOfFields_fields]
  cases hrevision : s.target.revision with
  | legacy =>
      have hdebug := read_debug nameHash hsize hrevision
      simp only [Image.Header.stored, hexports, himports, hstrings, hdebug]
      rfl
  | rev36 =>
      have hglobals := read_globals nameHash hsize hrevision
      simp only [Image.Header.stored, hexports, himports, hstrings, hglobals]
      rfl

end Script

end GscAssembler
