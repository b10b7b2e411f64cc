import GscAssembler.Proofs.Image.Functions

/-!
# The bytes of fields, rows and texts

Whatever the sections of an image are made of is appended to it as one list of bytes: fields, the rows
of a table, texts and their addresses, included scripts, and export entries.  Each list is given here
with its length, which for rows and texts is the size that the section expects.
-/

namespace GscAssembler.Image

open Bytes (Buffer ByteOrder)
open Code (FunctionLayout)
open Reference (Entry Table)

/-! ## Fields and rows -/

/-- Writing pieces one behind the other, each of which is known from the byte order. -/
theorem foldl_append_eq_append {β : Type} {write : Buffer → β → Buffer}
    (bytes : ByteOrder → β → List UInt8)
    (hwrite : ∀ b x, write b x = b.append (bytes b.order x)) (xs : List β) :
    ∀ b : Buffer, xs.foldl write b = b.append (xs.flatMap (bytes b.order)) := by
  induction xs with
  | nil => intro b; simp
  | cons x rest ih =>
      intro b
      rw [List.foldl_cons, ih, hwrite, Buffer.append_append]
      rfl

/-- The bytes of fields one behind the other. -/
def fieldBytes (order : ByteOrder) (fields : List Header.Field) : List UInt8 :=
  fields.flatMap fun field => order.bytes field.1 field.2

/-- The widths of fields together. -/
def fieldsSize (fields : List Header.Field) : Nat :=
  (fields.map (·.1)).sum

@[simp] theorem length_fieldBytes (order : ByteOrder) (fields : List Header.Field) :
    (fieldBytes order fields).length = fieldsSize fields := by
  simp [fieldBytes, fieldsSize, List.length_flatMap]

theorem foldl_word_eq_append (fields : List Header.Field) (b : Buffer) :
    fields.foldl (fun b (width, value) => b.word width value) b =
      b.append (fieldBytes b.order fields) :=
  foldl_append_eq_append (fun order (field : Header.Field) => order.bytes field.1 field.2)
    (fun _ _ => rfl) fields b

theorem foldl_word_four_eq_append (addresses : List Nat) (b : Buffer) :
    addresses.foldl (fun b address => b.word 4 address) b =
      b.append (addresses.flatMap (b.order.bytes 4)) :=
  foldl_append_eq_append (fun order address => order.bytes 4 address)
    (fun _ _ => rfl) addresses b

/-- The bytes of a row, with the fields that its length has before the references. -/
def rowBytes (order : ByteOrder) (rowHeader : Nat → List Header.Field) (row : List Nat) :
    List UInt8 :=
  fieldBytes order (rowHeader row.length) ++ row.flatMap (order.bytes 4)

/-- The bytes of all rows of an entry. -/
def entryBytes {α : Type} (order : ByteOrder) (rowHeader : Nat → List Header.Field) (e : Entry α) :
    List UInt8 :=
  e.rows.flatMap (rowBytes order rowHeader)

/-- The bytes of all rows of a table. -/
def tableBytes {α : Type} [Ord α] (order : ByteOrder)
    (rowHeader : Entry α → Nat → List Header.Field) (t : Table α) : List UInt8 :=
  t.entries.toList.flatMap fun e => entryBytes order (rowHeader e) e

section Rows

variable {α : Type} [Ord α]

omit [Ord α] in
theorem writeRows_eq_append (entry : Entry α) (rowHeader : Nat → List Header.Field)
    (image : Buffer) :
    Assembly.writeRows entry rowHeader image =
      image.append (entryBytes image.order rowHeader entry) := by
  refine foldl_append_eq_append (fun order row => rowBytes order rowHeader row) ?_ _ _
  intro b row
  rw [foldl_word_eq_append, foldl_word_four_eq_append, Buffer.append_append]
  rfl

theorem foldl_writeRows_eq_append (t : Table α) (rowHeader : Entry α → Nat → List Header.Field)
    (image : Buffer) :
    t.entries.foldl (fun b e => Assembly.writeRows e (rowHeader e) b) image =
      image.append (tableBytes image.order rowHeader t) := by
  rw [← Array.foldl_toList]
  exact foldl_append_eq_append (fun order e => entryBytes order (rowHeader e) e)
    (fun b e => writeRows_eq_append e (rowHeader e) b) _ _

omit [Ord α] in
theorem length_entryBytes (order : ByteOrder) {rowHeader : Nat → List Header.Field} {size : Nat}
    (hsize : ∀ count, fieldsSize (rowHeader count) = size) (e : Entry α) :
    (entryBytes order rowHeader e).length = e.rowCount * size + e.references.size * 4 := by
  have hrow : ∀ row : List Nat, (rowBytes order rowHeader row).length = size + row.length * 4 := by
    intro row
    simp [rowBytes, List.length_flatMap, hsize]
  have hall : ∀ rows : List (List Nat), (rows.flatMap (rowBytes order rowHeader)).length =
      rows.length * size + rows.flatten.length * 4 := by
    intro rows
    induction rows with
    | nil => simp
    | cons row rest ih =>
        simp only [List.flatMap_cons, List.length_append, hrow, ih, List.length_cons,
          List.flatten_cons, Nat.add_mul, Nat.one_mul]
        omega
  rw [entryBytes, hall, e.length_rows, e.flatten_rows, Array.length_toList]

theorem length_tableBytes (order : ByteOrder) {rowHeader : Entry α → Nat → List Header.Field}
    {size : Nat} (hsize : ∀ e count, fieldsSize (rowHeader e count) = size) (t : Table α) :
    (tableBytes order rowHeader t).length = t.rowsSize size := by
  have hall : ∀ entries : List (Entry α),
      (entries.flatMap fun e => entryBytes order (rowHeader e) e).length =
        (entries.map (·.rowCount)).sum * size + (entries.map (·.references.size)).sum * 4 := by
    intro entries
    induction entries with
    | nil => simp
    | cons e rest ih =>
        simp only [List.flatMap_cons, List.length_append, length_entryBytes order (hsize e), ih,
          List.map_cons, List.sum_cons, Nat.add_mul]
        omega
  rw [tableBytes, hall, Table.rowsSize, t.rowCount_eq_sum, t.referenceCount_eq_sum]

end Rows

/-- The rows of the strings. -/
def stringRowsBytes (target : Target) (t : Table String) : List UInt8 :=
  tableBytes target.order
    (fun e => Assembly.stringRowHeader target (e.address.getD 0)) t

theorem fieldsSize_stringRowHeader (target : Target) (address count : Nat) :
    fieldsSize (Assembly.stringRowHeader target address count) = target.stringRowHeaderSize := by
  obtain ⟨revision, order⟩ := target
  cases revision <;> cases order <;> rfl

theorem length_stringRowsBytes (target : Target) (t : Table String) :
    (stringRowsBytes target t).length = t.rowsSize target.stringRowHeaderSize :=
  length_tableBytes _ (fun e => fieldsSize_stringRowHeader target (e.address.getD 0)) t

/-! ## Texts and their addresses -/

/-- The bytes of a text and of the zero behind it. -/
def textBytes (s : String) : List UInt8 :=
  Text.utf8 s ++ [0]

@[simp] theorem length_textBytes (s : String) : (textBytes s).length = Contents.textSize s := by
  simp [textBytes, Contents.textSize, Bytes.Buffer.length_utf8]

theorem foldl_text_eq_append (texts : List String) (b : Buffer) :
    texts.foldl (fun b s => b.text s) b = b.append (texts.flatMap textBytes) :=
  foldl_append_eq_append (fun _ s => textBytes s) Buffer.text_eq_append texts b

/-- Where texts start that are stored one behind the other from an address on. -/
def textAddresses : (address : Nat) → List String → List Nat
  | _, [] => []
  | address, s :: rest => address :: textAddresses (address + Contents.textSize s) rest

/-- String entries with the addresses of their texts, which are stored one behind the other. -/
def withAddresses : (address : Nat) → List (Entry String) → List (Entry String)
  | _, [] => []
  | address, e :: rest =>
      { e with address := some address } ::
        withAddresses (address + Contents.textSize e.value) rest

theorem length_textAddresses (texts : List String) :
    ∀ address, (textAddresses address texts).length = texts.length := by
  induction texts with
  | nil => intro address; rfl
  | cons s rest ih => intro address; simp [textAddresses, ih]

theorem map_address_withAddresses (entries : List (Entry String)) :
    ∀ address, (withAddresses address entries).map (·.address) =
      (textAddresses address (entries.map (·.value))).map some := by
  induction entries with
  | nil => intro address; rfl
  | cons e rest ih => intro address; simp [withAddresses, textAddresses, ih]

/-- Addresses change neither the values nor the references. -/
theorem map_withAddresses {β : Type} {f : Entry String → β}
    (hf : ∀ (e : Entry String) address, f { e with address := some address } = f e)
    (entries : List (Entry String)) :
    ∀ address, (withAddresses address entries).map f = entries.map f := by
  induction entries with
  | nil => intro address; rfl
  | cons e rest ih => intro address; simp [withAddresses, ih, hf]

theorem addressed_eq (entries : Array (Entry String)) (start : Nat) :
    Assembly.addressed start entries = (withAddresses start entries.toList).toArray := by
  have hfold : ∀ (l : List (Entry String)) (address : Nat) (done : Array (Entry String)),
      (l.foldl (fun p e =>
        (p.1 + Contents.textSize e.value, p.2.push { e with address := some p.1 }))
        (address, done)).2 = done ++ withAddresses address l := by
    intro l
    induction l with
    | nil => intro address done; simp [withAddresses]
    | cons e rest ih => intro address done; simp [withAddresses, ih]
  rw [Assembly.addressed, ← Array.foldl_toList, hfold]
  simp

/-- Strings of the legacy machine are written one behind the other, unless one starts where a
big-endian platform cannot address it. -/
theorem foldlM_writeLegacyString (target : Target) (entries : List (Entry String)) :
    ∀ (image : Buffer) (done : Array (Entry String)),
      (target.isLittle = true ∨
        ∀ address ∈ textAddresses image.position (entries.map (·.value)), address ≤ countLimit) →
      entries.foldlM (Assembly.writeLegacyString target) (image, done) =
        .ok (image.append ((entries.map (·.value)).flatMap textBytes),
          done ++ withAddresses image.position entries) := by
  induction entries with
  | nil => intro image done _; simp [withAddresses, pure, Except.pure]
  | cons e rest ih =>
      intro image done hfits
      have hhere : ¬ ((!target.isLittle && decide (countLimit < image.position)) = true) := by
        rcases hfits with hlittle | hall
        · simp [hlittle]
        · have := hall image.position (by simp [textAddresses])
          simp only [Bool.and_eq_true, decide_eq_true_eq, not_and]
          omega
      have hnext : (image.append (textBytes e.value)).position =
          image.position + Contents.textSize e.value := by simp
      rw [List.foldlM_cons, Assembly.writeLegacyString]
      simp only [hhere, bind, Except.bind, Bool.false_eq_true, if_false,
        Buffer.text_eq_append]
      change rest.foldlM _ (image.append (textBytes e.value), _) = _
      rw [ih _ _ ?_]
      · rw [hnext]
        simp [withAddresses]
      · rw [hnext]
        rcases hfits with hlittle | hall
        · exact .inl hlittle
        · exact .inr fun address haddress => hall address (by simp [textAddresses, haddress])

theorem foldlM_writeLegacyString_error (target : Target) {entries : List (Entry String)} :
    ∀ (image : Buffer) (done : Array (Entry String)), target.isLittle = false →
      (∃ address ∈ textAddresses image.position (entries.map (·.value)), countLimit < address) →
      ∃ address, entries.foldlM (Assembly.writeLegacyString target) (image, done) =
        .error (.capacityExceeded "string address" address countLimit) := by
  induction entries with
  | nil =>
      rintro image done - ⟨address, haddress, -⟩
      simp [textAddresses] at haddress
  | cons e rest ih =>
      intro image done hbig hexceeds
      rw [List.foldlM_cons, Assembly.writeLegacyString]
      by_cases hhere : countLimit < image.position
      · exact ⟨image.position, by simp [hbig, hhere, bind, Except.bind]⟩
      · have hnext : (image.append (textBytes e.value)).position =
            image.position + Contents.textSize e.value := by simp
        obtain ⟨address, haddress, hlarge⟩ := hexceeds
        rw [List.map_cons, textAddresses] at haddress
        rcases List.mem_cons.mp haddress with rfl | haddress
        · exact absurd hlarge hhere
        · obtain ⟨address', herror⟩ := ih (image.append (textBytes e.value)) (done.push _) hbig
            ⟨address, by rwa [hnext], hlarge⟩
          refine ⟨address', ?_⟩
          simp only [hhere, decide_false, Bool.and_false, Bool.false_eq_true, if_false, bind,
            Except.bind, Buffer.text_eq_append]
          exact herror

/-- The texts of a table of strings take the space expected for them. -/
theorem length_texts (texts : List String) :
    (texts.flatMap textBytes).length = (texts.map Contents.textSize).sum := by
  simp [List.length_flatMap]

/-! ## Includes -/

/-- The bytes of the included scripts. -/
def includesBytes (target : Target) (base : Nat) (includes : List String) : List UInt8 :=
  match target.revision with
  | .legacy =>
      (textAddresses (base + includes.length * 4) includes).flatMap (target.order.bytes 4) ++
        includes.flatMap textBytes
  | .rev36 => includes.flatMap fun path => target.order.bytes 8 (Name.pathHash path).toNat

theorem foldl_pointers_eq_append (paths : List String) :
    ∀ (address : Nat) (b : Buffer), (paths.foldl (fun (address, b) path =>
        (address + Contents.textSize path, b.word 4 address)) (address, b)).2 =
      b.append ((textAddresses address paths).flatMap (b.order.bytes 4)) := by
  induction paths with
  | nil => intro address b; simp [textAddresses]
  | cons path rest ih =>
      intro address b
      rw [List.foldl_cons, ih, Buffer.word_eq_append, Buffer.append_append]
      rfl

theorem length_includesBytes (target : Target) (base : Nat) (includes : List String) :
    (includesBytes target base includes).length =
      match target.revision with
      | .legacy => includes.foldl (fun sum path => sum + (4 + Contents.textSize path)) 0
      | .rev36 => includes.length * 8 := by
  unfold includesBytes
  cases target.revision with
  | legacy =>
      have hfrom : ∀ sum, includes.foldl (fun sum path => sum + (4 + Contents.textSize path)) sum =
          sum + (includes.length * 4 + (includes.map Contents.textSize).sum) := by
        induction includes with
        | nil => intro sum; rfl
        | cons path rest ih =>
            intro sum
            simp only [List.foldl_cons, ih, List.map_cons, List.sum_cons, List.length_cons]
            omega
      have hpointers := hfrom 0
      rw [Nat.zero_add] at hpointers
      simp only [List.length_append, length_texts, hpointers]
      simp [List.length_flatMap, length_textAddresses]
  | rev36 => simp [List.length_flatMap]

/-! ## Export entries -/

/-- The bytes of an export entry. -/
def exportBytes (target : Target) (layout : FunctionLayout) : List UInt8 :=
  fieldBytes target.order (Assembly.exportFields target layout)

@[simp] theorem length_exportBytes (target : Target) (layout : FunctionLayout) :
    (exportBytes target layout).length = target.exportEntrySize := by
  obtain ⟨revision, order⟩ := target
  rw [exportBytes, length_fieldBytes]
  cases revision <;> rfl

/-- The space for export entries is filled entry by entry. -/
theorem foldl_patch_eq_append (target : Target) (after : List UInt8)
    (layouts : List FunctionLayout) :
    ∀ (b : Buffer), (layouts.foldl (fun (address, b) layout =>
        (address + target.exportEntrySize, b.patch address (exportBytes target layout)))
        (b.position, b.append
          (List.replicate (layouts.length * target.exportEntrySize) 0 ++ after))).2 =
      b.append (layouts.flatMap (exportBytes target) ++ after) := by
  induction layouts with
  | nil => intro b; simp
  | cons layout rest ih =>
      intro b
      have hspace : List.replicate ((layout :: rest).length * target.exportEntrySize) (0 : UInt8) =
          List.replicate target.exportEntrySize 0 ++
            List.replicate (rest.length * target.exportEntrySize) 0 := by
        rw [← List.replicate_add, List.length_cons, Nat.succ_mul, Nat.add_comm]
      have hlength : (List.replicate target.exportEntrySize (0 : UInt8)).length =
          (exportBytes target layout).length := by simp
      have hpatch := Buffer.patch_append (b := b)
        (List.replicate (rest.length * target.exportEntrySize) 0 ++ after) hlength
      have hnext : b.position + target.exportEntrySize =
          (b.append (exportBytes target layout)).position := by simp
      rw [List.foldl_cons, hspace, List.append_assoc]
      dsimp only
      rw [hpatch, ← Buffer.append_append, hnext, ih]
      simp

end GscAssembler.Image
