import GscAssembler.Proofs.Image.Exports

/-!
# Loading an image

`load` is what the machine does with an image: it knows nothing but the bytes.  The first word tells
the target, the header the offsets and counts, and these lead to the export entries, the rows and the
included scripts.

The second half says what reading finds.  Fields that fit their widths are read back as they were
written (`readWords_of_slice`), and so are rows, whose length is itself one of their fields
(`readRows_of_slice`).
-/

namespace GscAssembler.Image

open Bytes (ByteOrder slice)
open Code (FunctionLayout)
open Reference (Entry ImportKey Table)

/-! ## The loader -/

/-- The numbers in consecutive words of given widths. -/
def readWords (order : ByteOrder) (image : Array UInt8) :
    (position : Nat) → (widths : List Nat) → List Nat
  | _, [] => []
  | position, width :: rest =>
      order.value (slice image position width) :: readWords order image (position + width) rest

/-- The widths of the fields before the references of a row, and which of them counts these. -/
structure RowFormat where
  /-- The widths of the fields. -/
  widths : List Nat
  /-- The position of the field that counts the references. -/
  countAt : Nat

/-- The fields and the references of so many consecutive rows. -/
def readRows (order : ByteOrder) (image : Array UInt8) (format : RowFormat) :
    (count : Nat) → (position : Nat) → List (List Nat × List Nat)
  | 0, _ => []
  | count + 1, position =>
      let fields := readWords order image position format.widths
      let behind := position + format.widths.sum
      let references := readWords order image behind
        (List.replicate (fields.getD format.countAt 0) 4)
      (fields, references) ::
        readRows order image format count (behind + 4 * references.length)

/-- Import rows. -/
def importFormat : RowFormat := ⟨[4, 4, 2, 1, 1], 2⟩

/-- String rows. -/
def stringFormat (target : Target) : RowFormat :=
  match target.revision, target.order with
  | .legacy, .big => ⟨[2, 1, 1], 1⟩
  | _, _ => ⟨[4, 1, 1, 2], 1⟩

/-- Developer string rows. -/
def debugFormat : RowFormat := ⟨[4, 1, 2, 1], 1⟩

/-- Rows of global objects. -/
def globalFormat : RowFormat := ⟨[4, 4], 1⟩

/-- The import that the fields of a row name. -/
def importOfFields (fields : List Nat) : ImportKey where
  function := UInt32.ofNat (fields.getD 0 0)
  namespaceHash := UInt32.ofNat (fields.getD 1 0)
  params := UInt8.ofNat (fields.getD 3 0)
  flags := UInt8.ofNat (fields.getD 4 0)

/-- What an export entry says. -/
structure ExportEntry where
  /-- The checksum of the function. -/
  crc : UInt32
  /-- The address of the function. -/
  address : Nat
  /-- The hash of its name. -/
  hash : UInt32
  /-- The hash of its namespace. -/
  namespaceHash : UInt32
  /-- The number of its parameters. -/
  params : UInt8
  /-- How it is exported. -/
  flags : UInt8
  deriving DecidableEq, Repr

/-- What the export entry of a function has to say. -/
def ExportEntry.ofLayout (layout : FunctionLayout) : ExportEntry where
  crc := layout.crc
  address := layout.address
  hash := layout.hash
  namespaceHash := layout.namespaceHash
  params := layout.params
  flags := layout.flags

/-- The widths of the fields of an export entry. -/
def exportWidths : Revision → List Nat
  | .legacy => [4, 4, 4, 4, 1, 1, 2]
  | .rev36 => [4, 4, 4, 4, 4, 1, 1, 2]

/-- The export entry that fields spell out.  The newer machine's second namespace is passed over. -/
def exportOfFields (revision : Revision) (fields : List Nat) : ExportEntry :=
  let behind := match revision with
    | .legacy => 4
    | .rev36 => 5
  { crc := UInt32.ofNat (fields.getD 0 0)
    address := fields.getD 1 0
    hash := UInt32.ofNat (fields.getD 2 0)
    namespaceHash := UInt32.ofNat (fields.getD 3 0)
    params := UInt8.ofNat (fields.getD behind 0)
    flags := UInt8.ofNat (fields.getD (behind + 1) 0) }

/-- So many consecutive export entries. -/
def readExports (target : Target) (image : Array UInt8) :
    (count : Nat) → (position : Nat) → List ExportEntry
  | 0, _ => []
  | count + 1, position =>
      exportOfFields target.revision
          (readWords target.order image position (exportWidths target.revision)) ::
        readExports target image count (position + target.exportEntrySize)

/-- The widths of the fields of the header. -/
def headerWidths (target : Target) : List Nat :=
  match target.revision with
  | .legacy =>
      [8, 4, 4, 4, 4, 4, 4, 4, 4, 4, 4, 4, if target.isLittle then 4 else 2,
       2, 2, 2, 2, 2, 2, 1, 1, 1]
  | .rev36 =>
      [8, 4, 4, 8, 4, 2, 2, 4, 4, 2, 2, 4, 4, 4, 4, 2, 2, 4, 4, 4, 4, 4, 4, 2, 2, 4]

/-- The header that fields spell out, in the order of the revision.  What the revision does not store
stays zero. -/
def headerOfFields (revision : Revision) (fields : List Nat) : Header :=
  let at_ (position : Nat) : Nat := fields.getD position 0
  match revision with
  | .legacy =>
      { checksum := UInt32.ofNat (at_ 1), includeOffset := at_ 2, bytecodeOffset := at_ 4
        stringOffset := at_ 5, debugStringOffset := at_ 6, exportOffset := at_ 7
        importOffset := at_ 8, bytecodeSize := at_ 11, nameOffset := at_ 12, stringCount := at_ 13
        exportCount := at_ 14, importCount := at_ 15, debugStringCount := at_ 18
        includeCount := at_ 19 }
  | .rev36 =>
      { checksum := UInt32.ofNat (at_ 1), nameHash := UInt64.ofNat (at_ 3), includeOffset := at_ 4
        stringCount := at_ 5, exportCount := at_ 6, stringOffset := at_ 8, importCount := at_ 9
        exportOffset := at_ 12, importOffset := at_ 14, globalCount := at_ 15
        globalOffset := at_ 18, includeCount := at_ 23 }

/-- The target whose word an image starts with. -/
def targetOf? (image : Array UInt8) : Option Target :=
  [Target.legacyLittle, Target.legacyBig, Target.rev36Little, Target.rev36Big].find? fun target =>
    slice image 0 8 = target.order.bytes 8 target.magic

/-- What an image says about itself. -/
structure Loaded where
  /-- What the image is made for. -/
  target : Target
  /-- The fields of its header. -/
  header : Header
  /-- Its export entries. -/
  exports : List ExportEntry
  /-- Its import rows. -/
  imports : List (ImportKey × List Nat)
  /-- Its string rows, by the addresses of the strings. -/
  strings : List (Nat × List Nat)
  /-- Its developer string rows. -/
  debug : List (UInt32 × List Nat)
  /-- Its rows of global objects. -/
  globals : List (UInt32 × List Nat)
  /-- Its included scripts: the addresses of their paths, or the hashes of these. -/
  includes : List Nat
  deriving DecidableEq, Repr

/-- Reads an image. -/
def load (image : Array UInt8) : Option Loaded :=
  (targetOf? image).map fun target =>
    let order := target.order
    let header := headerOfFields target.revision (readWords order image 0 (headerWidths target))
    { target, header
      exports := readExports target image header.exportCount header.exportOffset
      imports := (readRows order image importFormat header.importCount header.importOffset).map
        fun row => (importOfFields row.1, row.2)
      strings := (readRows order image (stringFormat target) header.stringCount
        header.stringOffset).map fun row => (row.1.getD 0 0, row.2)
      debug := (readRows order image debugFormat header.debugStringCount
        header.debugStringOffset).map fun row => (UInt32.ofNat (row.1.getD 0 0), row.2)
      globals := (readRows order image globalFormat header.globalCount
        header.globalOffset).map fun row => (UInt32.ofNat (row.1.getD 0 0), row.2)
      includes := readWords order image header.includeOffset
        (List.replicate header.includeCount (if target.isLegacy then 4 else 8)) }

/-! ## Reading what was written -/

/-- Whether every value fits its width. -/
def Storable (fields : List Header.Field) : Prop :=
  ∀ field ∈ fields, field.2 < 256 ^ field.1

section Reading

variable {order : ByteOrder} {image : Array UInt8}

theorem slice_left {position count : Nat} {l after : List UInt8}
    (h : slice image position count = l ++ after) : slice image position l.length = l :=
  Bytes.slice_of_slice_eq (show _ = [] ++ l ++ after from h)

theorem slice_right {position count : Nat} {before l : List UInt8}
    (h : slice image position count = before ++ l) :
    slice image (position + before.length) l.length = l :=
  Bytes.slice_of_slice_eq (show _ = before ++ l ++ [] by rw [h, List.append_nil])

/-- Fields that fit their widths are read back as they were written. -/
theorem readWords_of_slice {fields : List Header.Field} (hstorable : Storable fields) :
    ∀ {position}, slice image position (fieldsSize fields) = fieldBytes order fields →
      readWords order image position (fields.map (·.1)) = fields.map (·.2) := by
  induction fields with
  | nil => intro position _; rfl
  | cons field rest ih =>
      intro position h
      have hsplit : slice image position (fieldsSize (field :: rest)) =
          order.bytes field.1 field.2 ++ fieldBytes order rest := h
      have hfirst := slice_left hsplit
      have hrest := slice_right hsplit
      rw [ByteOrder.length_bytes] at hfirst hrest
      rw [length_fieldBytes] at hrest
      have hvalue := Nat.mod_eq_of_lt (hstorable field (List.mem_cons_self ..))
      rw [List.map_cons, List.map_cons, readWords, hfirst, ByteOrder.value_bytes, hvalue,
        ih (fun other hother => hstorable other (List.mem_cons_of_mem _ hother)) hrest]

/-- A row as it is written: the fields before the references, and the references. -/
abbrev RawRow := List Header.Field × List Nat

/-- The bytes of a row. -/
def rawRowBytes (order : ByteOrder) (row : RawRow) : List UInt8 :=
  fieldBytes order row.1 ++ row.2.flatMap (order.bytes 4)

/-- Whether a row is one of a format and can be read back. -/
structure RowFormat.Holds (format : RowFormat) (row : RawRow) : Prop where
  widths : row.1.map (·.1) = format.widths
  storable : Storable row.1
  count : (row.1.map (·.2)).getD format.countAt 0 = row.2.length
  references : ∀ address ∈ row.2, address < 256 ^ 4

/-- Numbers of one width are read back as they were written. -/
theorem readWords_replicate {width position : Nat} {values : List Nat}
    (h : ∀ value ∈ values, value < 256 ^ width)
    (hslice : slice image position (values.flatMap (order.bytes width)).length =
      values.flatMap (order.bytes width)) :
    readWords order image position (List.replicate values.length width) = values := by
  have hfields : values.flatMap (order.bytes width) =
      fieldBytes order (values.map fun value => (width, value)) := by
    simp [fieldBytes, List.flatMap_map]
  have hstorable : Storable (values.map fun value => (width, value)) := by
    intro field hfield
    obtain ⟨value, hvalue, rfl⟩ := List.mem_map.mp hfield
    exact h value hvalue
  rw [hfields, length_fieldBytes] at hslice
  have hread := readWords_of_slice hstorable hslice
  simpa [Function.comp_def, List.map_const'] using hread

/-- Rows are read back as they were written. -/
theorem readRows_of_slice {format : RowFormat} {rows : List RawRow}
    (hrows : ∀ row ∈ rows, format.Holds row) :
    ∀ {position}, slice image position (rows.flatMap (rawRowBytes order)).length =
        rows.flatMap (rawRowBytes order) →
      readRows order image format rows.length position =
        rows.map fun row => (row.1.map (·.2), row.2) := by
  induction rows with
  | nil => intro position _; rfl
  | cons row rest ih =>
      intro position h
      obtain ⟨hwidths, hstorable, hcount, hreferences⟩ := hrows row (List.mem_cons_self ..)
      have hsplit : slice image position ((row :: rest).flatMap (rawRowBytes order)).length =
          fieldBytes order row.1 ++ (row.2.flatMap (order.bytes 4) ++
            rest.flatMap (rawRowBytes order)) := by
        rw [h, List.flatMap_cons, rawRowBytes, List.append_assoc]
      have hsize : format.widths.sum = fieldsSize row.1 := by rw [← hwidths, fieldsSize]
      have hfields := slice_left hsplit
      have hbehind := slice_right hsplit
      rw [length_fieldBytes] at hfields hbehind
      have hfirst := readWords_replicate hreferences (slice_left hbehind)
      have hrest := slice_right hbehind
      have hlength : (row.2.flatMap (order.bytes 4)).length = 4 * row.2.length := by
        simp [List.length_flatMap, Nat.mul_comm]
      rw [hlength] at hrest
      have hread := readWords_of_slice hstorable hfields
      rw [hwidths] at hread
      rw [List.length_cons, readRows, hread, hcount, hsize, hfirst,
        ih (fun other hother => hrows other (List.mem_cons_of_mem _ hother)) hrest]
      rfl

end Reading

/-- The rows of a table as they are written. -/
def rawRows {α : Type} [Ord α] (rowHeader : Entry α → Nat → List Header.Field) (t : Table α) :
    List RawRow :=
  t.entries.toList.flatMap fun e => e.rows.map fun row => (rowHeader e row.length, row)

/-- The rows of a table, each with its key. -/
def keyedRows {α β : Type} [Ord α] (key : Entry α → β) (t : Table α) : List (β × List Nat) :=
  t.entries.toList.flatMap fun e => e.rows.map fun row => (key e, row)

section Tables

variable {α : Type} [Ord α]

theorem tableBytes_eq (order : ByteOrder) (rowHeader : Entry α → Nat → List Header.Field)
    (t : Table α) : tableBytes order rowHeader t =
      (rawRows rowHeader t).flatMap (rawRowBytes order) := by
  simp only [tableBytes, rawRows, List.flatMap_assoc, entryBytes, List.flatMap_map]
  rfl

theorem length_rawRows (rowHeader : Entry α → Nat → List Header.Field) (t : Table α) :
    (rawRows rowHeader t).length = t.rowCount := by
  rw [rawRows, List.length_flatMap, t.rowCount_eq_sum]
  simp only [List.length_map, Entry.length_rows]

/-- The rows of a table are read back, each with its key. -/
theorem readRows_of_tableBytes {β : Type} {order : ByteOrder} {image : Array UInt8}
    {format : RowFormat} {rowHeader : Entry α → Nat → List Header.Field} {t : Table α}
    {position : Nat} (key : Entry α → β) (ofFields : List Nat → β)
    (hholds : ∀ e ∈ t.entries.toList, ∀ row ∈ e.rows, format.Holds (rowHeader e row.length, row))
    (hkey : ∀ e ∈ t.entries.toList, ∀ count, ofFields ((rowHeader e count).map (·.2)) = key e)
    (h : slice image position (tableBytes order rowHeader t).length =
      tableBytes order rowHeader t) :
    (readRows order image format t.rowCount position).map (fun row => (ofFields row.1, row.2)) =
      keyedRows key t := by
  rw [tableBytes_eq] at h
  have hrows : ∀ row ∈ rawRows rowHeader t, format.Holds row := by
    intro raw hraw
    obtain ⟨e, he, hraw⟩ := List.mem_flatMap.mp hraw
    obtain ⟨row, hrow, rfl⟩ := List.mem_map.mp hraw
    exact hholds e he row hrow
  rw [← length_rawRows rowHeader t, readRows_of_slice hrows h, rawRows, keyedRows]
  simp only [List.map_flatMap, List.map_map]
  refine List.flatMap_congr fun e he => List.map_congr_left fun row _ => ?_
  simp [hkey e he]

end Tables

/-! ## Joining rows -/

/-- Joins consecutive rows of one key. -/
def joinRows {β : Type} [DecidableEq β] : List (β × List Nat) → List (β × List Nat)
  | [] => []
  | (key, row) :: rest =>
      match joinRows rest with
      | [] => [(key, row)]
      | (other, references) :: more =>
          if key = other then (key, row ++ references) :: more
          else (key, row) :: (other, references) :: more

section Join

variable {β : Type} [DecidableEq β]

theorem mem_of_mem_joinRows {rows : List (β × List Nat)} {joined : β × List Nat}
    (h : joined ∈ joinRows rows) : ∃ row ∈ rows, row.1 = joined.1 := by
  induction rows generalizing joined with
  | nil => simp [joinRows] at h
  | cons row rest ih =>
      obtain ⟨key, references⟩ := row
      rw [joinRows] at h
      split at h
      · obtain rfl := List.mem_singleton.mp h
        exact ⟨_, List.mem_cons_self .., rfl⟩
      · rename_i other more rest' hrest
        have hlater : ∀ j ∈ joinRows rest, ∃ row ∈ (key, references) :: rest, row.1 = j.1 := by
          intro j hj
          obtain ⟨row, hrow, hkey⟩ := ih hj
          exact ⟨row, List.mem_cons_of_mem _ hrow, hkey⟩
        split at h <;> rcases List.mem_cons.mp h with rfl | h
        · exact ⟨_, List.mem_cons_self .., rfl⟩
        · exact hlater _ (hrest ▸ List.mem_cons_of_mem _ h)
        · exact ⟨_, List.mem_cons_self .., rfl⟩
        · exact hlater _ (hrest ▸ h)

/-- The rows of one key in front of rows of other keys are joined to one. -/
theorem joinRows_append {key : β} {rest : List (β × List Nat)}
    (hrest : ∀ row ∈ rest, row.1 ≠ key) (row : List Nat) (rows : List (List Nat)) :
    joinRows (((row :: rows).map fun row => (key, row)) ++ rest) =
      (key, (row :: rows).flatten) :: joinRows rest := by
  induction rows generalizing row with
  | nil =>
      simp only [List.map_cons, List.map_nil, List.cons_append, List.nil_append, joinRows,
        List.flatten_cons, List.flatten_nil, List.append_nil]
      split
      · rename_i hnil
        rw [hnil]
      · rename_i other references more hjoined
        have hne : ¬ key = other := by
          have hmem : (other, references) ∈ joinRows rest := hjoined ▸ List.mem_cons_self ..
          obtain ⟨r, hr, hkey⟩ := mem_of_mem_joinRows hmem
          exact fun heq => hrest r hr (hkey.trans heq.symm)
        rw [if_neg hne, hjoined]
  | cons next rows ih =>
      rw [List.map_cons, List.cons_append, joinRows, ih next]
      simp

/-- Joining the rows of a table gives the entries that have references, with all of them. -/
theorem joinRows_keyedRows {α : Type} [Ord α] {key : Entry α → β} {t : Table α}
    (hkeys : (t.entries.toList.map key).Nodup) :
    joinRows (keyedRows key t) =
      (t.entries.toList.filter fun e => !e.references.isEmpty).map
        fun e => (key e, e.references.toList) := by
  rw [keyedRows]
  generalize t.entries.toList = entries at hkeys ⊢
  induction entries with
  | nil => rfl
  | cons e rest ih =>
      obtain ⟨hnotMem, hnodup⟩ := List.nodup_cons.mp hkeys
      have hrest := ih hnodup
      have hother : ∀ row ∈ rest.flatMap (fun e => e.rows.map fun row => (key e, row)),
          row.1 ≠ key e := by
        intro row hrow heq
        obtain ⟨other, hother, hrow⟩ := List.mem_flatMap.mp hrow
        obtain ⟨r, -, rfl⟩ := List.mem_map.mp hrow
        exact hnotMem (heq ▸ List.mem_map_of_mem hother)
      have hflatten := e.flatten_rows
      rw [List.flatMap_cons]
      cases hrows : e.rows with
      | nil =>
          have hempty : e.references.isEmpty = true := by
            rw [hrows] at hflatten
            simpa using hflatten.symm
          simpa [hempty] using hrest
      | cons row rows =>
          have hnonempty : e.references.isEmpty = false := by
            have hrow := (Entry.mem_rows (hrows ▸ List.mem_cons_self .. : row ∈ e.rows)).1
            rw [hrows, List.flatten_cons] at hflatten
            cases hreferences : e.references.toList with
            | nil => rw [hreferences] at hflatten; simp_all
            | cons first more =>
                have : e.references ≠ #[] := fun heq => by simp [heq] at hreferences
                simpa using this
          rw [joinRows_append hother, hrest, ← hrows, e.flatten_rows,
            List.filter_cons_of_pos (by simp [hnonempty]), List.map_cons]

end Join

end GscAssembler.Image
