import GscAssembler.Proofs.Image.Sections

/-!
# Committing a section

Each section is written as one list of bytes, `Assembly.sectionBytes`, which is known before anything
is written, and leaves its offsets and counts in the header and its addresses and references in the
tables (`Assembly.filled`).  The bytes are exactly as many as the size of the section without its
padding (`length_sectionBytes`); so filling a section up to its size appends zeros and drops nothing,
and committing it succeeds whenever it `Fits` (`commit_of_fits`) and fails otherwise
(`commit_of_not_fits`).
-/

namespace GscAssembler

theorem requireAtMost_of_le (what : String) {count limit : Nat} (h : count ≤ limit) :
    requireAtMost what count limit = .ok () := by
  simp [requireAtMost, h]

theorem requireAtMost_bind_of_not_le {α : Type} (what : String) {count limit : Nat}
    (h : ¬ count ≤ limit) (next : Unit → Except CompileError α) :
    (requireAtMost what count limit >>= next) = .error (.capacityExceeded what count limit) := by
  rw [requireAtMost, if_pos (Nat.lt_of_not_le h)]
  rfl

end GscAssembler

namespace GscAssembler.Image

open Bytes (Buffer ByteOrder sectionPadding)
open Code (FunctionLayout ScriptFunction)
open Reference (Entry ImportKey Table Tables)

namespace Assembly

/-! ## What a section is and leaves behind -/

/-- Whether the image ends where the next section starts. -/
structure Ready (a : Assembly) : Prop where
  start : a.image.start = 0
  order : a.image.order = a.target.order
  position : a.image.position = a.base

/-- The address behind the export entries, if the functions come next. -/
def entriesEnd (a : Assembly) : Nat :=
  a.base + a.functions.length * a.target.exportEntrySize

/-- The functions with their starts, if they come next. -/
def placedFunctions (a : Assembly) : List (ScriptFunction × Nat) :=
  Code.placeFunctions a.entriesEnd a.functions

/-- The layouts of the functions, if they come next. -/
def nextLayouts (a : Assembly) : List FunctionLayout :=
  Code.layoutsOf a.target.order a.tables a.placedFunctions

/-- The code of the functions, if they come next. -/
def nextCode (a : Assembly) : List UInt8 :=
  Code.codeFrom a.target.order a.tables a.entriesEnd a.functions

/-- Where the first function starts, if the functions come next. -/
def codeStart (a : Assembly) : Nat :=
  (a.placedFunctions.head?.map (·.2)).getD a.entriesEnd

/-- The strings with addresses from a given one on. -/
def stringsAt (a : Assembly) (address : Nat) : Table String :=
  { a.tables.strings with
    entries := (withAddresses address a.tables.strings.entries.toList).toArray }

/-- Where the texts of the strings start, if the strings come next. -/
def textsStart (a : Assembly) : Nat :=
  match a.target.revision with
  | .legacy => a.base
  | .rev36 => a.base + a.contents.stringRowsSize

/-- What a section leaves in the header, the tables and the layouts. -/
def filled (a : Assembly) : Section → Assembly
  | .header => a
  | .name => { a with header := { a.header with nameOffset := a.base } }
  | .strings =>
      match a.target.revision with
      | .legacy => { a with tables := { a.tables with strings := a.stringsAt a.base } }
      | .rev36 =>
          { a with
            header := { a.header with
              stringOffset := a.base, stringCount := a.tables.strings.rowCount }
            tables := { a.tables with strings := a.stringsAt a.textsStart } }
  | .exports =>
      { a with
        layouts := a.nextLayouts
        tables := (Code.referencesFrom a.placedFunctions).foldl Tables.record a.tables
        header := { a.header with
          exportOffset := a.base, exportCount := a.functions.length
          bytecodeOffset := a.codeStart
          bytecodeSize := Code.functionsEnd a.entriesEnd a.functions - a.codeStart } }
  | .imports =>
      { a with
        header := { a.header with
          importOffset := a.base, importCount := a.tables.imports.rowCount } }
  | .includes =>
      { a with
        header := { a.header with includeOffset := a.base, includeCount := a.includes.length } }
  | .stringFixups =>
      { a with
        header := { a.header with
          stringOffset := a.base, stringCount := a.tables.strings.rowCount } }
  | .debugStrings =>
      { a with
        header := { a.header with
          debugStringOffset := a.base, debugStringCount := a.tables.debug.rowCount } }
  | .globals =>
      { a with
        header := { a.header with
          globalOffset := a.base, globalCount := a.tables.globals.rowCount } }

/-- The bytes of a section without its padding. -/
def sectionBytes (a : Assembly) : Section → List UInt8
  | .header => List.replicate a.target.headerSize 0
  | .name => textBytes a.scriptName
  | .strings =>
      match a.target.revision with
      | .legacy => a.tables.strings.values.flatMap textBytes
      | .rev36 =>
          stringRowsBytes a.target (a.stringsAt a.textsStart) ++
            a.tables.strings.values.flatMap textBytes
  | .exports => a.nextLayouts.flatMap (exportBytes a.target) ++ a.nextCode
  | .imports => tableBytes a.target.order (fun e => importRowHeader e.value) a.tables.imports
  | .includes => includesBytes a.target a.base a.includes
  | .stringFixups => stringRowsBytes a.target a.tables.strings
  | .debugStrings => tableBytes a.target.order (fun e => debugRowHeader e.value) a.tables.debug
  | .globals => tableBytes a.target.order (fun e => globalRowHeader e.value) a.tables.globals

/-- Whether a section keeps the limits of the format, and the functions are sound. -/
def Fits (a : Assembly) : Section → Prop
  | .header | .name => True
  | .strings =>
      match a.target.revision with
      | .legacy =>
          a.target.isLittle = true ∨
            ∀ address ∈ textAddresses a.base a.tables.strings.values, address ≤ countLimit
      | .rev36 => a.tables.strings.rowCount ≤ countLimit
  | .exports =>
      a.functions.length ≤ countLimit ∧ ∀ p ∈ a.placedFunctions, p.1.Sound a.tables p.2
  | .imports => a.tables.imports.rowCount ≤ countLimit
  | .includes =>
      a.includes.length ≤
        match a.target.revision with
        | .legacy => legacyIncludeLimit
        | .rev36 => countLimit
  | .stringFixups => a.tables.strings.rowCount ≤ countLimit
  | .debugStrings => a.tables.debug.rowCount ≤ countLimit
  | .globals => a.tables.globals.rowCount ≤ countLimit

/-- The bytes behind the contents of a section up to its end. -/
def sectionGap (a : Assembly) (s : Section) : Nat :=
  sectionPadding a.base (a.sectionBytes s).length

/-- The assembly before a section is written: functions are laid out already. -/
def prepared (a : Assembly) (s : Section) : Assembly :=
  if s = .exports then
    { a.filled .exports with
      image := a.image.append
        (List.replicate (a.functions.length * a.target.exportEntrySize) 0 ++ a.nextCode) }
  else a

/-- The assembly with a section written, but not filled up to its size. -/
def written (a : Assembly) (s : Section) : Assembly :=
  { a.filled s with image := a.image.append (a.sectionBytes s) }

/-- The assembly with a section committed. -/
def committed (a : Assembly) (s : Section) : Assembly :=
  { a.filled s with
    image := a.image.append (a.sectionBytes s ++ List.replicate (a.sectionGap s) 0)
    records := a.records.push ⟨s, a.base, (a.sectionBytes s).length + a.sectionGap s⟩ }

/-! ## What a section leaves alone -/

section Frame

variable (a : Assembly) (s : Section)

@[simp] theorem target_filled : (a.filled s).target = a.target := by
  unfold filled; split <;> (try split) <;> rfl

@[simp] theorem scriptName_filled : (a.filled s).scriptName = a.scriptName := by
  unfold filled; split <;> (try split) <;> rfl

@[simp] theorem includes_filled : (a.filled s).includes = a.includes := by
  unfold filled; split <;> (try split) <;> rfl

@[simp] theorem functions_filled : (a.filled s).functions = a.functions := by
  unfold filled; split <;> (try split) <;> rfl

@[simp] theorem records_filled : (a.filled s).records = a.records := by
  unfold filled; split <;> (try split) <;> rfl

@[simp] theorem target_committed : (a.committed s).target = a.target := a.target_filled s

@[simp] theorem scriptName_committed : (a.committed s).scriptName = a.scriptName :=
  a.scriptName_filled s

@[simp] theorem includes_committed : (a.committed s).includes = a.includes := a.includes_filled s

@[simp] theorem functions_committed : (a.committed s).functions = a.functions :=
  a.functions_filled s

@[simp] theorem base_committed :
    (a.committed s).base = a.base + ((a.sectionBytes s).length + a.sectionGap s) := by
  simp [base, committed]

end Frame

theorem ready_committed {a : Assembly} (h : a.Ready) (s : Section) : (a.committed s).Ready where
  start := h.start
  order := by simpa [committed] using h.order
  position := by
    rw [base_committed, ← h.position]
    simp [committed]

/-! ## Sizes -/

theorem length_nextLayouts (a : Assembly) : a.nextLayouts.length = a.functions.length := by
  rw [nextLayouts, Code.layoutsOf, List.length_map, ← List.length_map (f := (·.1)),
    placedFunctions, Code.map_placeFunctions]

theorem length_nextCode (a : Assembly) :
    a.base + (a.functions.length * a.target.exportEntrySize + a.nextCode.length) =
      Code.functionsEnd a.entriesEnd a.functions := by
  rw [← Nat.add_assoc]
  exact Code.length_codeFrom _ _ _ _

theorem length_exports (a : Assembly) :
    a.base + (a.sectionBytes .exports).length = Code.functionsEnd a.entriesEnd a.functions := by
  have hentries : (a.nextLayouts.flatMap (exportBytes a.target)).length =
      a.functions.length * a.target.exportEntrySize := by
    simp [List.length_flatMap, length_nextLayouts]
  rw [sectionBytes, List.length_append, hentries, length_nextCode]

theorem codeStart_le (a : Assembly) :
    a.base ≤ a.codeStart ∧ a.codeStart ≤ Code.functionsEnd a.entriesEnd a.functions := by
  have hbase : a.base ≤ a.entriesEnd := Nat.le_add_right _ _
  unfold codeStart
  cases hhead : a.placedFunctions.head? with
  | none => exact ⟨hbase, Code.le_functionsEnd _ _⟩
  | some p =>
      have hmem : p ∈ a.placedFunctions := List.mem_of_mem_head? (by simp [hhead])
      obtain ⟨hle, -, hend⟩ := Code.span_of_mem_placeFunctions hmem
      have := p.1.le_endAt p.2
      simp only [Option.map_some, Option.getD_some]
      omega

theorem rowCount_stringsAt (a : Assembly) (address : Nat) :
    (a.stringsAt address).rowCount = a.tables.strings.rowCount := by
  have hrows := map_withAddresses (f := Entry.rowCount) (fun _ _ => rfl)
    a.tables.strings.entries.toList address
  simp only [Table.rowCount_eq_sum, stringsAt, hrows]

theorem rowsSize_stringsAt (a : Assembly) (address size : Nat) :
    (a.stringsAt address).rowsSize size = a.tables.strings.rowsSize size := by
  have hreferences := map_withAddresses (f := fun e => e.references.size) (fun _ _ => rfl)
    a.tables.strings.entries.toList address
  rw [Table.rowsSize, Table.rowsSize, rowCount_stringsAt]
  simp only [Table.referenceCount_eq_sum, stringsAt, hreferences]

theorem values_stringsAt (a : Assembly) (address : Nat) :
    (a.stringsAt address).values = a.tables.strings.values :=
  map_withAddresses (f := Entry.value) (fun _ _ => rfl) _ _

theorem stringsSize_eq (c : Contents) :
    c.stringsSize = (c.tables.strings.values.map Contents.textSize).sum := by
  rw [Contents.stringsSize, ← Array.foldl_toList, Table.values, List.map_map,
    ← List.foldl_map (f := fun e : Entry String => Contents.textSize e.value) (g := (· + ·)),
    List.sum_eq_foldl]
  rfl

/-- The size that a section expects is the size that it has. -/
theorem length_sectionBytes (a : Assembly) (s : Section) :
    (a.filled s).contents.rawSize s = (a.sectionBytes s).length := by
  cases s with
  | header => simp [filled, contents, Contents.rawSize, sectionBytes]
  | name => simp [filled, contents, Contents.rawSize, sectionBytes]
  | strings =>
      cases hrevision : a.target.revision with
      | legacy =>
          simp only [filled, contents, Contents.rawSize, sectionBytes, hrevision, stringsSize_eq,
            length_texts, values_stringsAt]
      | rev36 =>
          simp only [filled, contents, Contents.rawSize, sectionBytes, hrevision, stringsSize_eq,
            List.length_append, length_texts, values_stringsAt, length_stringRowsBytes,
            Contents.stringRowsSize]
  | exports =>
      have hlength := a.length_exports
      have hstart := a.codeStart_le
      simp only [filled, contents, Contents.rawSize]
      omega
  | imports =>
      exact (length_tableBytes a.target.order (fun e count =>
        (rfl : fieldsSize (importRowHeader e.value count) = importRowHeaderSize)) _).symm
  | includes => exact (length_includesBytes _ _ _).symm
  | stringFixups => exact (length_stringRowsBytes _ _).symm
  | debugStrings =>
      exact (length_tableBytes a.target.order (fun e count =>
        (rfl : fieldsSize (debugRowHeader e.value count) = debugRowHeaderSize)) _).symm
  | globals =>
      exact (length_tableBytes a.target.order (fun e count =>
        (rfl : fieldsSize (globalRowHeader e.value count) = globalRowHeaderSize)) _).symm

/-- Only the layout of functions decides on a size that was not known before. -/
theorem rawSize_filled (a : Assembly) {s : Section} (h : s ≠ .exports) :
    (a.filled s).contents.rawSize s = a.contents.rawSize s := by
  cases s with
  | exports => exact absurd rfl h
  | strings =>
      cases hrevision : a.target.revision <;>
        simp only [filled, contents, Contents.rawSize, hrevision, stringsSize_eq, values_stringsAt,
          Contents.stringRowsSize, rowsSize_stringsAt]
  | _ => rfl

/-! ## Committing what fits -/


theorem layOutFunctions_eq (a : Assembly) :
    a.layOutFunctions = (do
      requireAtMost "exports" a.functions.length countLimit
      let laid ← a.functions.foldlM Code.layOutNext (#[], a.image.padTo a.entriesEnd, a.tables)
      let codeStart := (laid.1[0]?.map (·.address)).getD a.entriesEnd
      .ok { a with
        layouts := laid.1.toList, image := laid.2.1, tables := laid.2.2
        header := { a.header with
          exportOffset := a.base, exportCount := a.functions.length
          bytecodeOffset := codeStart, bytecodeSize := laid.2.1.position - codeStart } }) := rfl

theorem layOutFunctions_of_fits {a : Assembly} (hready : a.Ready) (hfits : a.Fits .exports) :
    a.layOutFunctions = .ok (a.prepared .exports) := by
  obtain ⟨hstart, horder, hposition⟩ := hready
  obtain ⟨hcount, hsound⟩ := hfits
  have hle : a.image.position ≤ a.entriesEnd := by
    rw [hposition]
    exact Nat.le_add_right _ _
  have hspace : a.entriesEnd - a.image.position = a.functions.length * a.target.exportEntrySize := by
    rw [hposition, entriesEnd, Nat.add_sub_cancel_left]
  have hpadded : (a.image.padTo a.entriesEnd).position = a.entriesEnd := Buffer.position_padTo hle
  have hfold : a.functions.foldlM Code.layOutNext (#[], a.image.padTo a.entriesEnd, a.tables) =
      .ok (a.nextLayouts.toArray, a.image.append
        (List.replicate (a.functions.length * a.target.exportEntrySize) 0 ++ a.nextCode),
        (Code.referencesFrom a.placedFunctions).foldl Tables.record a.tables) := by
    rw [Code.foldlM_layOutNext_of_sound a.functions #[] _ a.tables (.refl _) (by simpa using hstart)
      (by rw [hpadded]; exact hsound), hpadded, Buffer.order_padTo, horder,
      Buffer.padTo_eq_append hle, hspace, Buffer.append_append]
    simp [nextLayouts, nextCode, placedFunctions]
  have hend : (a.image.append (List.replicate (a.functions.length * a.target.exportEntrySize) 0 ++
      a.nextCode)).position = Code.functionsEnd a.entriesEnd a.functions := by
    rw [Buffer.position_append, hposition, List.length_append, List.length_replicate,
      length_nextCode]
  have hfirst : (a.nextLayouts.toArray[0]?.map (·.address)).getD a.entriesEnd = a.codeStart := by
    simp [nextLayouts, Code.layoutsOf, codeStart, List.head?_eq_getElem?, Function.comp_def,
      ScriptFunction.layoutAt]
  rw [layOutFunctions_eq, requireAtMost_of_le _ hcount, hfold]
  simp only [bind, Except.bind, hend, hfirst]
  rfl

theorem writeExports_prepared {a : Assembly} (hready : a.Ready) :
    (a.prepared .exports).writeExports = a.written .exports := by
  have hfold := foldl_patch_eq_append a.target a.nextCode a.nextLayouts a.image
  rw [length_nextLayouts, hready.position] at hfold
  rw [written, sectionBytes, ← hfold]
  rfl

theorem writeStringRows_eq_append {a : Assembly} (horder : a.image.order = a.target.order) :
    a.writeStringRows = a.image.append (stringRowsBytes a.target a.tables.strings) := by
  rw [stringRowsBytes, ← horder]
  exact foldl_writeRows_eq_append _ _ _

theorem writeRev36Strings_of_fits {a : Assembly} (hready : a.Ready)
    (hrevision : a.target.revision = .rev36) (hfits : a.tables.strings.rowCount ≤ countLimit) :
    a.writeRev36Strings = .ok (a.written .strings) := by
  have hentries : addressed (a.base + a.contents.stringRowsSize) a.tables.strings.entries =
      (a.stringsAt a.textsStart).entries := by
    simp only [stringsAt, textsStart, hrevision, addressed_eq]
  have htexts : ∀ b : Buffer, (a.stringsAt a.textsStart).entries.foldl (fun b e => b.text e.value) b =
      b.append (a.tables.strings.values.flatMap textBytes) := by
    intro b
    rw [← values_stringsAt a a.textsStart, ← foldl_text_eq_append, Table.values, List.foldl_map,
      Array.foldl_toList]
  simp only [writeRev36Strings, requireAtMost_of_le _ hfits, bind, Except.bind, hentries, htexts]
  rw [writeStringRows_eq_append (by exact hready.order), Buffer.append_append]
  simp only [written, filled, sectionBytes, hrevision]
  rfl

/-- Preparing a section that fits lays out the functions, if it is theirs. -/
theorem prepare_of_fits {a : Assembly} {s : Section} (hready : a.Ready) (hfits : a.Fits s) :
    (if s = .exports then a.layOutFunctions else .ok a) = .ok (a.prepared s) := by
  by_cases hexports : s = .exports
  · subst hexports
    exact layOutFunctions_of_fits hready hfits
  · simp [prepared, hexports]

/-- Writing a section that fits appends its bytes. -/
theorem write_of_fits {a : Assembly} {s : Section} (hready : a.Ready) (hfits : a.Fits s) :
    (a.prepared s).write s = .ok (a.written s) := by
  cases s with
  | header =>
      have hle : a.image.position ≤ a.base + a.target.headerSize := by
        rw [hready.position]
        exact Nat.le_add_right _ _
      have hspace : a.base + a.target.headerSize - a.image.position = a.target.headerSize := by
        rw [hready.position, Nat.add_sub_cancel_left]
      simp only [prepared, reduceCtorEq, if_false, write, written, filled, sectionBytes,
        Buffer.padTo_eq_append hle, hspace]
  | name => simp [prepared, write, writeName, written, filled, sectionBytes, Buffer.text_eq_append,
      textBytes]
  | strings =>
      cases hrevision : a.target.revision with
      | legacy =>
          simp only [Fits, hrevision] at hfits
          have hfold := foldlM_writeLegacyString a.target a.tables.strings.entries.toList a.image #[]
            (by rw [hready.position]; exact hfits)
          simp only [prepared, reduceCtorEq, if_false, write, hrevision, writeLegacyStrings, hfold,
            bind, Except.bind, written, filled, sectionBytes, stringsAt, hready.position, Table.values]
          simp
      | rev36 =>
          simp only [Fits, hrevision] at hfits
          simp only [prepared, reduceCtorEq, if_false, write, hrevision]
          exact writeRev36Strings_of_fits hready hrevision hfits
  | exports => simp only [write, writeExports_prepared hready]
  | imports =>
      simp only [prepared, reduceCtorEq, if_false, write, writeImports, requireAtMost_of_le _ hfits,
        bind, Except.bind, written, filled, sectionBytes, ← hready.order,
        foldl_writeRows_eq_append _ (fun e => importRowHeader e.value)]
  | includes =>
      cases hrevision : a.target.revision with
      | legacy =>
          simp only [Fits, hrevision] at hfits
          simp only [prepared, reduceCtorEq, if_false, write, hrevision, writeLegacyIncludes,
            requireAtMost_of_le _ hfits, bind, Except.bind, written, filled, sectionBytes, includesBytes,
            foldl_text_eq_append, foldl_pointers_eq_append, Buffer.append_append, hready.order]
      | rev36 =>
          simp only [Fits, hrevision] at hfits
          have hword : ∀ (b : Buffer) (path : String), b.word 8 (Name.pathHash path).toNat =
              b.append (b.order.bytes 8 (Name.pathHash path).toNat) := fun _ _ => rfl
          have hfold := foldl_append_eq_append
            (fun order path => order.bytes 8 (Name.pathHash path).toNat) hword a.includes a.image
          simp only [prepared, reduceCtorEq, if_false, write, hrevision, writeRev36Includes,
            requireAtMost_of_le _ hfits, bind, Except.bind, written, filled, sectionBytes, includesBytes, hfold,
            hready.order]
  | stringFixups =>
      simp only [prepared, reduceCtorEq, if_false, write, writeStringFixups, requireAtMost_of_le _ hfits,
        bind, Except.bind, written, filled, sectionBytes, writeStringRows_eq_append hready.order]
  | debugStrings =>
      simp only [prepared, reduceCtorEq, if_false, write, writeDebugStrings, requireAtMost_of_le _ hfits,
        bind, Except.bind, written, filled, sectionBytes, ← hready.order,
        foldl_writeRows_eq_append _ (fun e => debugRowHeader e.value)]
  | globals =>
      simp only [prepared, reduceCtorEq, if_false, write, writeGlobals, requireAtMost_of_le _ hfits,
        bind, Except.bind, written, filled, sectionBytes, ← hready.order,
        foldl_writeRows_eq_append _ (fun e => globalRowHeader e.value)]

theorem commit_eq (a : Assembly) (s : Section) :
    a.commit s = (if s = .exports then a.layOutFunctions else .ok a) >>= fun p =>
      p.write s >>= fun w =>
        let image := w.image.padTo (a.base + p.contents.size s a.base)
        .ok { w with image, records := w.records.push ⟨s, a.base, image.position - a.base⟩ } := by
  unfold commit
  split <;> rfl

/-- The size computed before a section is written is the size it has in the end. -/
theorem size_prepared (a : Assembly) (s : Section) :
    (a.prepared s).contents.size s a.base = (a.sectionBytes s).length + a.sectionGap s := by
  have hraw : (a.prepared s).contents.rawSize s = (a.sectionBytes s).length := by
    rw [← length_sectionBytes]
    by_cases hexports : s = .exports
    · subst hexports
      rfl
    · simp only [prepared, hexports, if_false]
      exact (rawSize_filled a hexports).symm
  rw [Contents.size, hraw]
  rfl

theorem position_written {a : Assembly} (hready : a.Ready) (s : Section) :
    (a.written s).image.position = a.base + (a.sectionBytes s).length := by
  rw [written, Buffer.position_append, hready.position]

/-- Committing a section that fits appends its bytes and zeros up to its end. -/
theorem commit_of_fits {a : Assembly} {s : Section} (hready : a.Ready) (hfits : a.Fits s) :
    a.commit s = .ok (a.committed s) := by
  have hgap : a.base + ((a.sectionBytes s).length + a.sectionGap s) - (a.written s).image.position =
      a.sectionGap s := by
    rw [position_written hready]
    omega
  have hfilled : (a.written s).image.padTo (a.base + (a.prepared s).contents.size s a.base) =
      a.image.append (a.sectionBytes s ++ List.replicate (a.sectionGap s) 0) := by
    rw [size_prepared, Buffer.padTo_eq_append (by rw [position_written hready]; omega), hgap,
      written, Buffer.append_append]
  have hsize : (a.image.append (a.sectionBytes s ++ List.replicate (a.sectionGap s) 0)).position -
      a.base = (a.sectionBytes s).length + a.sectionGap s := by
    rw [Buffer.position_append, hready.position, Nat.add_sub_cancel_left, List.length_append,
      List.length_replicate]
  rw [commit_eq, prepare_of_fits hready hfits]
  change ((a.prepared s).write s >>= _) = _
  rw [write_of_fits hready hfits]
  simp only [bind, Except.bind, hfilled, hsize, committed]
  simp only [written, records_filled]

/-! ## Refusing what does not fit -/

/-- Why a section is refused: a limit of the format, or a function that is refused. -/
def Rejects (a : Assembly) (s : Section) (e : CompileError) : Prop :=
  (∃ what count limit, e = .capacityExceeded what count limit) ∨
    s = .exports ∧ ∃ p ∈ a.placedFunctions, p.1.Refused a.tables p.2 e

theorem layOutFunctions_of_not_fits {a : Assembly} (hready : a.Ready)
    (hnot : ¬ a.Fits .exports) :
    ∃ e, a.layOutFunctions = .error e ∧ a.Rejects .exports e := by
  by_cases hcount : a.functions.length ≤ countLimit
  · have hle : a.image.position ≤ a.entriesEnd := by
      rw [hready.position]
      exact Nat.le_add_right _ _
    have hpadded : (a.image.padTo a.entriesEnd).position = a.entriesEnd :=
      Buffer.position_padTo hle
    have hunsound : ∃ p ∈ a.placedFunctions, ¬ p.1.Sound a.tables p.2 := by
      by_contra hall
      push Not at hall
      exact hnot ⟨hcount, hall⟩
    obtain ⟨e, he, hwhy⟩ := Code.foldlM_layOutNext_of_not_sound #[]
      (a.image.padTo a.entriesEnd) a.tables (.refl _) (by simpa using hready.start)
      (by rw [hpadded]; exact hunsound)
    rw [hpadded] at hwhy
    exact ⟨e, by rw [layOutFunctions_eq, requireAtMost_of_le _ hcount, he]; rfl,
      .inr ⟨rfl, hwhy⟩⟩
  · refine ⟨_, ?_, .inl ⟨"exports", a.functions.length, countLimit, rfl⟩⟩
    rw [layOutFunctions_eq]
    exact requireAtMost_bind_of_not_le _ hcount _

theorem write_of_not_fits {a : Assembly} {s : Section} (hready : a.Ready) (hnot : ¬ a.Fits s)
    (hexports : s ≠ .exports) :
    ∃ what count limit, a.write s = .error (.capacityExceeded what count limit) := by
  cases s with
  | header | name => exact absurd trivial hnot
  | exports => exact absurd rfl hexports
  | strings =>
      cases hrevision : a.target.revision with
      | legacy =>
          simp only [Fits, hrevision] at hnot
          push Not at hnot
          obtain ⟨hbig, address, haddress, hlarge⟩ := hnot
          obtain ⟨large, herror⟩ := foldlM_writeLegacyString_error a.target a.image #[]
            (by simpa using hbig)
            ⟨address, by rw [hready.position]; exact haddress, by omega⟩
          refine ⟨"string address", large, countLimit, ?_⟩
          rw [write, hrevision]
          simp only [writeLegacyStrings, herror, bind, Except.bind]
      | rev36 =>
          simp only [Fits, hrevision] at hnot
          rw [write, hrevision]
          exact ⟨_, _, _, requireAtMost_bind_of_not_le _ hnot _⟩
  | includes =>
      rw [write]
      cases hrevision : a.target.revision <;> simp only [Fits, hrevision] at hnot <;>
        exact ⟨_, _, _, requireAtMost_bind_of_not_le _ hnot _⟩
  | imports | stringFixups | debugStrings | globals =>
      exact ⟨_, _, _, requireAtMost_bind_of_not_le _ hnot _⟩

theorem commit_of_not_fits {a : Assembly} {s : Section} (hready : a.Ready) (hnot : ¬ a.Fits s) :
    ∃ e, a.commit s = .error e ∧ a.Rejects s e := by
  rw [commit_eq]
  by_cases hexports : s = .exports
  · subst hexports
    obtain ⟨e, he, hwhy⟩ := layOutFunctions_of_not_fits hready hnot
    exact ⟨e, by rw [if_pos rfl, he]; rfl, hwhy⟩
  · obtain ⟨what, count, limit, herror⟩ := write_of_not_fits hready hnot hexports
    refine ⟨_, ?_, .inl ⟨what, count, limit, rfl⟩⟩
    rw [if_neg hexports]
    change (a.write s >>= _) = _
    rw [herror]
    rfl

/-! ## Committing section after section -/

/-- Whether each of a list of sections fits when it is its turn. -/
def FitsAll : Assembly → List Section → Prop
  | _, [] => True
  | a, s :: rest => a.Fits s ∧ (a.committed s).FitsAll rest

theorem ready_foldl_committed (sections : List Section) :
    ∀ {a : Assembly}, a.Ready → (sections.foldl committed a).Ready := by
  induction sections with
  | nil => intro a h; exact h
  | cons s rest ih => intro a h; exact ih (ready_committed h s)

theorem fitsAll_append (first second : List Section) :
    ∀ a : Assembly, a.FitsAll (first ++ second) ↔
      a.FitsAll first ∧ (first.foldl committed a).FitsAll second := by
  induction first with
  | nil => intro a; simp [FitsAll]
  | cons s rest ih => intro a; simp [FitsAll, ih, and_assoc]

theorem foldlM_commit_of_fits (sections : List Section) :
    ∀ {a : Assembly}, a.Ready → a.FitsAll sections →
      sections.foldlM commit a = .ok (sections.foldl committed a) := by
  induction sections with
  | nil => intro a _ _; rfl
  | cons s rest ih =>
      intro a hready hfits
      rw [List.foldlM_cons, commit_of_fits hready hfits.1]
      exact ih (ready_committed hready s) hfits.2

/-- The first section that does not fit is refused. -/
theorem foldlM_commit_of_not_fits (sections : List Section) :
    ∀ {a : Assembly}, a.Ready → ¬ a.FitsAll sections →
      ∃ e, sections.foldlM commit a = .error e ∧
        ∃ first s second, sections = first ++ s :: second ∧
          (first.foldl committed a).Rejects s e := by
  induction sections with
  | nil => intro a _ hnot; exact absurd trivial hnot
  | cons s rest ih =>
      intro a hready hnot
      rw [List.foldlM_cons]
      by_cases hfits : a.Fits s
      · have hlater : ¬ (a.committed s).FitsAll rest := fun h => hnot ⟨hfits, h⟩
        obtain ⟨e, he, first, t, second, hsplit, hwhy⟩ := ih (ready_committed hready s) hlater
        rw [commit_of_fits hready hfits]
        exact ⟨e, he, s :: first, t, second, by rw [hsplit, List.cons_append], hwhy⟩
      · obtain ⟨e, he, hwhy⟩ := commit_of_not_fits hready hfits
        exact ⟨e, by rw [he]; rfl, [], s, rest, rfl, hwhy⟩

theorem fitsAll_of_foldlM_commit {sections : List Section} {a b : Assembly} (hready : a.Ready)
    (h : sections.foldlM commit a = .ok b) :
    a.FitsAll sections ∧ b = sections.foldl committed a := by
  by_cases hfits : a.FitsAll sections
  · rw [foldlM_commit_of_fits sections hready hfits] at h
    exact ⟨hfits, (Except.ok.inj h).symm⟩
  · obtain ⟨e, he, -⟩ := foldlM_commit_of_not_fits sections hready hfits
    rw [he] at h
    cases h

end Assembly

end GscAssembler.Image
