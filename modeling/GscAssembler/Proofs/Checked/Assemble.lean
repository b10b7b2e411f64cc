import GscAssembler.Proofs.Checked.Layout
import GscAssembler.Proofs.Image.Exports

/-!
# Assembling an image with checks

Each section starts where the one before it ends, takes exactly the size expected for it and is never
filled up to less than was written; export entries and the header are written over bytes that are
there.  So an image is assembled without a breach, whatever the script (`agrees_compile`).
-/

namespace GscAssembler.Checked

open Bytes (Buffer)
open Code (FunctionLayout ScriptFunction)
open Image (Assembly Contents Header Section countLimit exportBytes)
open Reference (Entry Tables)

/-! ## Sections -/

/-- The size of a section without its padding. -/
def rawSize (c : Contents) : Section → Checks Nat
  | .exports => difference (c.header.bytecodeOffset + c.header.bytecodeSize) c.header.exportOffset
  | s => return c.rawSize s

/-- The size of a section at an address, its padding included. -/
def sectionSize (c : Contents) (s : Section) (base : Nat) : Checks Nat := do
  let raw ← rawSize c s
  return raw + (← sectionPadding base raw)

/-- Lays out one more function. -/
def layOutNext (state : Array FunctionLayout × Buffer × Tables) (f : ScriptFunction) :
    Checks (Array FunctionLayout × Buffer × Tables) := do
  let (layout, image, tables) ← layOut f state.2.1 state.2.2
  return (state.1.push layout, image, tables)

/-- Lays out all functions behind the space for the export entries. -/
def layOutFunctions (a : Assembly) : Checks Assembly := do
  let count := a.functions.length
  plain (requireAtMost "exports" count countLimit)
  let entriesEnd := a.base + count * a.target.exportEntrySize
  let padded ← padTo a.image entriesEnd
  let laid ← a.functions.foldlM layOutNext (#[], padded, a.tables)
  let bytecodeOffset := (laid.1[0]?.map (·.address)).getD entriesEnd
  let bytecodeSize ← difference laid.2.1.position bytecodeOffset
  return { a with
    layouts := laid.1.toList, image := laid.2.1, tables := laid.2.2
    header := { a.header with
      exportOffset := a.base, exportCount := count, bytecodeOffset, bytecodeSize } }

/-- Writes the text of a string, which must be where its entry says. -/
def writeText (b : Buffer) (e : Entry String) : Checks Buffer := do
  require (e.address = some b.position) .unexpected
  return b.text e.value

/-- Writes the string rows and behind them the texts, for the newer machine. -/
def writeRev36Strings (a : Assembly) : Checks Assembly := do
  let written ← plain a.writeRev36Strings
  let rows := { written with image := a.image }.writeStringRows
  let image ← written.tables.strings.entries.toList.foldlM writeText rows
  return { written with image }

/-- Fills in an export entry, for which there must be space. -/
def writeExport (target : Target) (progress : Nat × Buffer) (layout : FunctionLayout) :
    Checks (Nat × Buffer) := do
  let bytes := exportBytes target layout
  require (bytes.length = target.exportEntrySize) .unexpected
  requireRange progress.2 progress.1 bytes.length
  return (progress.1 + target.exportEntrySize, progress.2.patch progress.1 bytes)

/-- Fills in the export entries. -/
def writeExports (a : Assembly) : Checks Assembly := do
  let done ← a.layouts.foldlM (writeExport a.target) (a.base, a.image)
  return { a with image := done.2 }

/-- Writes the contents of a section. -/
def write (a : Assembly) : Section → Checks Assembly
  | .header => do return { a with image := ← padTo a.image (a.base + a.target.headerSize) }
  | .strings =>
      match a.target.revision with
      | .legacy => plain a.writeLegacyStrings
      | .rev36 => writeRev36Strings a
  | .exports => writeExports a
  | s => plain (a.write s)

/-- Makes an assembly ready for a section: lays out the functions, if it is theirs. -/
def prepare (a : Assembly) (s : Section) : Checks Assembly :=
  if s = .exports then layOutFunctions a else return a

/-- Writes a section and fills it up to the size it was expected to have. -/
def commit (a : Assembly) (s : Section) : Checks Assembly := do
  require (a.image.position = a.base) .unexpected
  let prepared ← prepare a s
  let expected ← sectionSize prepared.contents s a.base
  let written ← write prepared s
  let raw ← difference written.image.position a.base
  require (raw + (← sectionPadding a.base raw) = expected) .unexpected
  let image ← padTo written.image (a.base + expected)
  let size ← difference image.position a.base
  return { written with image, records := written.records.push ⟨s, a.base, size⟩ }

/-- The encoded header, whose fields must not take more than its size. -/
def encodeHeader (h : Header) (target : Target) : Checks (List UInt8) := do
  let start : Buffer := { order := target.order }
  let written := (h.fields target).foldl (fun b (width, value) => b.word width value) start
  return (← padTo written target.headerSize).bytes.toList

/-- Fills in the header. -/
def finish (a : Assembly) : Checks Assembly := do
  let header ← encodeHeader a.header a.target
  requireRange a.image 0 header.length
  return { a with image := a.image.patch 0 header }

/-- Assembles the image of a script. -/
def compile (s : Script) : Checks CompiledScript := do
  let (nameHash, s) ← plain (s.hash64 s.settings.scriptName)
  let written ← (Section.order s.target.revision).foldlM commit (s.startAssembly nameHash)
  let a ← finish written
  return {
    target := a.target
    scriptName := a.scriptName
    includes := a.includes
    image := a.image.bytes
    header := a.header
    layouts := a.layouts
    records := a.records.toList
    tables := a.tables
    names := s.names }

/-! ## Functions and export entries -/

/-- The start of the first function laid out so far. -/
def firstStart (layouts : Array FunctionLayout) (entriesEnd : Nat) : Nat :=
  (layouts[0]?.map (·.address)).getD entriesEnd

/-- The functions laid out so far start before the end of the image. -/
theorem agrees_layOutNext {entriesEnd : Nat} (state : Array FunctionLayout × Buffer × Tables)
    (f : ScriptFunction) (hzero : state.2.1.start = 0)
    (hfirst : firstStart state.1 entriesEnd ≤ state.2.1.position) :
    Agrees (layOutNext state f) (Code.layOutNext state f) fun laid =>
      laid.2.1.start = 0 ∧ firstStart laid.1 entriesEnd ≤ laid.2.1.position := by
  refine (agrees_layOut f state.2.2 hzero).bind ?_
  rintro ⟨layout, image, tables⟩ - ⟨hzero, hstart, hend⟩
  refine .ok ⟨hzero, ?_⟩
  dsimp only at hstart hend ⊢
  unfold firstStart at hfirst ⊢
  rw [Array.getElem?_push]
  split
  · exact hend
  · omega

section Sections

variable {a : Assembly}

theorem eq_prepared_of_layOutFunctions (hready : a.Ready) {p : Assembly}
    (hp : a.layOutFunctions = .ok p) : p = a.prepared .exports := by
  by_cases hfits : a.Fits .exports
  · rw [Assembly.layOutFunctions_of_fits hready hfits] at hp
    exact (Except.ok.inj hp).symm
  · obtain ⟨e, he, -⟩ := Assembly.layOutFunctions_of_not_fits hready hfits
    rw [he] at hp
    cases hp

/-- The functions are laid out without a breach, behind the space for their entries. -/
theorem agrees_layOutFunctions (hready : a.Ready) :
    Agrees (layOutFunctions a) a.layOutFunctions (· = a.prepared .exports) := by
  have hle : a.image.position ≤ a.entriesEnd := hready.position ▸ Nat.le_add_right _ _
  have hlaid : Agrees (a.functions.foldlM layOutNext (#[], a.image.padTo a.entriesEnd, a.tables))
      (a.functions.foldlM Code.layOutNext (#[], a.image.padTo a.entriesEnd, a.tables))
      fun laid => laid.2.1.start = 0 ∧ firstStart laid.1 a.entriesEnd ≤ laid.2.1.position :=
    .foldlM _ ⟨by simpa using hready.start, (Buffer.position_padTo hle).ge⟩
      fun state hstate f _ => agrees_layOutNext state f hstate.1 hstate.2
  have hagrees : Agrees (layOutFunctions a) a.layOutFunctions fun _ => True := by
    rw [Assembly.layOutFunctions_eq]
    refine .plain_bind fun _ _ => ?_
    change Agrees (padTo a.image a.entriesEnd >>= _) _ _
    rw [padTo_eq_ok hle]
    refine hlaid.bind ?_
    rintro laid - ⟨-, hfirst⟩
    change Agrees (difference _ (firstStart laid.1 a.entriesEnd) >>= _) _ _
    rw [difference_eq_ok hfirst]
    exact .ok trivial
  exact ⟨hagrees.eq_plain, fun p => eq_prepared_of_layOutFunctions hready⟩

/-- Export entries are written over the space that was left for them. -/
theorem foldlM_writeExport (target : Target) (layouts : List FunctionLayout) :
    ∀ (address : Nat) (b : Buffer), b.start = 0 →
      address + layouts.length * target.exportEntrySize ≤ b.position →
      layouts.foldlM (writeExport target) (address, b) =
        .ok (layouts.foldl (fun (address, b) layout =>
          (address + target.exportEntrySize, b.patch address (exportBytes target layout)))
          (address, b)) := by
  induction layouts with
  | nil => exact fun _ _ _ _ => rfl
  | cons layout rest ih =>
      intro address b hzero hspace
      have hlength := Image.length_exportBytes target layout
      rw [List.length_cons, Nat.succ_mul] at hspace
      have hhere : address + (exportBytes target layout).length ≤ b.position := by omega
      rw [List.foldlM_cons, writeExport, require_eq_ok hlength, requireRange_eq_ok hzero hhere]
      exact ih _ _ hzero (by simp only [Buffer.position_patch]; omega)

theorem writeExports_prepared (hready : a.Ready) :
    writeExports (a.prepared .exports) = .ok (a.prepared .exports).writeExports := by
  have hspace : a.base + a.nextLayouts.length * a.target.exportEntrySize ≤
      (a.prepared .exports).image.position := by
    change _ ≤ (a.image.append _).position
    rw [Buffer.position_append, hready.position, Assembly.length_nextLayouts, List.length_append,
      List.length_replicate]
    omega
  have hfold := foldlM_writeExport a.target a.nextLayouts a.base (a.prepared .exports).image
    hready.start hspace
  change (a.nextLayouts.foldlM (writeExport a.target) (a.base, (a.prepared .exports).image) >>= _) = _
  rw [hfold]
  rfl

/-! ## Strings -/

/-- Texts that are stored one behind the other are where their entries say. -/
theorem foldlM_writeText (entries : List (Entry String)) :
    ∀ b : Buffer, (Image.withAddresses b.position entries).foldlM writeText b =
      .ok ((Image.withAddresses b.position entries).foldl (fun b e => b.text e.value) b) := by
  induction entries with
  | nil => exact fun _ => rfl
  | cons e rest ih =>
      intro b
      have hnext : b.position + Contents.textSize e.value = (b.text e.value).position := by
        rw [Buffer.position_text]
        rfl
      rw [Image.withAddresses, List.foldlM_cons, List.foldl_cons, hnext, writeText,
        require_eq_ok rfl]
      exact ih (b.text e.value)

/-- The rows of the newer machine end where the texts start. -/
theorem writeStringRows_written (hready : a.Ready) (hrevision : a.target.revision = .rev36) :
    ({ a.written .strings with image := a.image } : Assembly).writeStringRows =
        a.image.append (Image.stringRowsBytes a.target (a.stringsAt a.textsStart)) ∧
      (a.image.append
        (Image.stringRowsBytes a.target (a.stringsAt a.textsStart))).position = a.textsStart := by
  constructor
  · have horder : a.image.order = (a.written .strings).target.order := by
      simpa [Assembly.written] using hready.order
    have hrows := Assembly.writeStringRows_eq_append
      (a := { a.written .strings with image := a.image }) horder
    simpa [Assembly.written, Assembly.filled, hrevision] using hrows
  · rw [Buffer.position_append, hready.position, Image.length_stringRowsBytes,
      Assembly.rowsSize_stringsAt, Assembly.textsStart, hrevision]
    rfl

theorem foldl_text_withAddresses (entries : List (Entry String)) (address : Nat) (b : Buffer) :
    (Image.withAddresses address entries).foldl (fun b e => b.text e.value) b =
      b.append ((entries.map (·.value)).flatMap Image.textBytes) := by
  rw [← Image.foldl_text_eq_append, ← Image.map_withAddresses (fun _ _ => rfl) entries address,
    List.foldl_map]

/-- The strings of the newer machine are where their entries say. -/
theorem agrees_writeRev36Strings (hready : a.Ready) (hrevision : a.target.revision = .rev36) :
    Agrees (writeRev36Strings a) a.writeRev36Strings fun _ => True := by
  refine ⟨?_, fun _ _ => trivial⟩
  unfold writeRev36Strings
  by_cases hfits : a.tables.strings.rowCount ≤ countLimit
  · obtain ⟨hrows, hposition⟩ := writeStringRows_written hready hrevision
    have hentries : (a.written .strings).tables.strings.entries.toList =
        Image.withAddresses a.textsStart a.tables.strings.entries.toList := by
      simp [Assembly.written, Assembly.filled, hrevision, Assembly.stringsAt]
    have htexts := foldlM_writeText a.tables.strings.entries.toList
      (a.image.append (Image.stringRowsBytes a.target (a.stringsAt a.textsStart)))
    rw [Assembly.writeRev36Strings_of_fits hready hrevision hfits]
    change (List.foldlM writeText _ (a.written .strings).tables.strings.entries.toList >>= _) = _
    rw [hposition] at htexts
    rw [hrows, hentries, htexts, foldl_text_withAddresses, Buffer.append_append]
    have hbytes : Image.stringRowsBytes a.target (a.stringsAt a.textsStart) ++
        (a.tables.strings.entries.toList.map (·.value)).flatMap Image.textBytes =
        a.sectionBytes .strings := by
      simp only [Assembly.sectionBytes, hrevision]
      rfl
    rw [hbytes]
    rfl
  · have herror : a.writeRev36Strings = .error _ := requireAtMost_bind_of_not_le _ hfits _
    rw [herror]
    rfl

/-! ## Committing sections -/

theorem agrees_prepare (hready : a.Ready) (s : Section) :
    Agrees (prepare a s) (if s = .exports then a.layOutFunctions else .ok a) (· = a.prepared s) := by
  unfold prepare
  by_cases hexports : s = .exports
  · subst hexports
    exact agrees_layOutFunctions hready
  · simp only [hexports, if_false]
    exact .ok (by simp [Assembly.prepared, hexports])

theorem eq_written_of_write (hready : a.Ready) {s : Section} {w : Assembly}
    (hw : (a.prepared s).write s = .ok w) : w = a.written s := by
  by_cases hexports : s = .exports
  · subst hexports
    rw [Assembly.write, Assembly.writeExports_prepared hready] at hw
    exact (Except.ok.inj hw).symm
  · by_cases hfits : a.Fits s
    · rw [Assembly.write_of_fits hready hfits] at hw
      exact (Except.ok.inj hw).symm
    · obtain ⟨what, count, limit, herror⟩ := Assembly.write_of_not_fits hready hfits hexports
      simp only [Assembly.prepared, hexports, if_false, herror] at hw
      cases hw

/-- A section is written without a breach. -/
theorem agrees_write (hready : a.Ready) (s : Section) :
    Agrees (write (a.prepared s) s) ((a.prepared s).write s) (· = a.written s) := by
  refine ⟨?_, fun w => eq_written_of_write hready⟩
  cases s with
  | header =>
      have hle : a.image.position ≤ a.base + a.target.headerSize :=
        hready.position ▸ Nat.le_add_right _ _
      change (padTo a.image (a.base + a.target.headerSize) >>= _) = _
      rw [padTo_eq_ok hle]
      rfl
  | strings =>
      change write a .strings = plain (a.write .strings)
      cases hrevision : a.target.revision with
      | legacy => simp only [write, Assembly.write, hrevision]
      | rev36 =>
          simp only [write, Assembly.write, hrevision]
          exact (agrees_writeRev36Strings hready hrevision).eq_plain
  | exports => exact writeExports_prepared hready
  | _ => rfl

theorem sectionSize_prepared (a : Assembly) (s : Section) :
    sectionSize (a.prepared s).contents s a.base =
      .ok ((a.sectionBytes s).length + a.sectionGap s) := by
  have hraw : rawSize (a.prepared s).contents s = .ok ((a.prepared s).contents.rawSize s) := by
    cases s with
    | exports =>
        have hstart := a.codeStart_le
        exact difference_eq_ok (Nat.le_trans hstart.1 (Nat.le_add_right _ _))
    | _ => rfl
  rw [sectionSize, hraw]
  change (sectionPadding _ _ >>= _) = _
  rw [sectionPadding_eq_ok, ← Assembly.size_prepared]
  rfl

/-- A section is committed without a breach: it starts where the image ends, and it has the size that
was expected. -/
theorem agrees_commit (hready : a.Ready) (s : Section) :
    Agrees (commit a s) (a.commit s) Assembly.Ready := by
  have hposition := Assembly.position_written hready s
  have hraw : difference (a.written s).image.position a.base = .ok (a.sectionBytes s).length := by
    rw [hposition, difference_eq_ok (Nat.le_add_right _ _), Nat.add_sub_cancel_left]
  have hend : (a.written s).image.position ≤
      a.base + ((a.sectionBytes s).length + a.sectionGap s) := by omega
  have hagrees : Agrees (commit a s) (a.commit s) fun _ => True := by
    rw [Assembly.commit_eq]
    unfold commit
    rw [require_eq_ok hready.position]
    refine (agrees_prepare hready s).bind ?_
    rintro p - rfl
    rw [sectionSize_prepared, Assembly.size_prepared]
    refine (agrees_write hready s).bind ?_
    rintro w - rfl
    rw [hraw]
    change Agrees (sectionPadding _ _ >>= _) _ _
    rw [sectionPadding_eq_ok]
    change Agrees (require ((a.sectionBytes s).length + a.sectionGap s = _) _ >>= _) _ _
    rw [require_eq_ok rfl]
    change Agrees (padTo _ _ >>= _) _ _
    rw [padTo_eq_ok hend]
    change Agrees (difference _ _ >>= _) _ _
    rw [difference_eq_ok (by rw [Buffer.position_padTo hend]; exact Nat.le_add_right _ _)]
    exact .ok trivial
  refine ⟨hagrees.eq_plain, fun b hb => ?_⟩
  by_cases hfits : a.Fits s
  · rw [Assembly.commit_of_fits hready hfits] at hb
    exact Except.ok.inj hb ▸ Assembly.ready_committed hready s
  · obtain ⟨e, he, -⟩ := Assembly.commit_of_not_fits hready hfits
    rw [he] at hb
    cases hb

end Sections

/-! ## The header and the whole image -/

theorem encodeHeader_eq_ok (h : Header) (target : Target) :
    encodeHeader h target = .ok (h.encode target) := by
  have hle : (({ order := target.order } : Buffer).append
      (Image.fieldBytes target.order (h.fields target))).position ≤ target.headerSize := by
    simpa [Buffer.position] using h.fieldsSize_le target
  simp only [encodeHeader, Header.encode, Image.foldl_word_eq_append]
  rw [padTo_eq_ok hle]
  rfl

theorem finish_eq_ok {a : Assembly} (hready : a.Ready) (h : a.target.headerSize ≤ a.base) :
    finish a = .ok a.finish := by
  unfold finish
  rw [encodeHeader_eq_ok]
  change (requireRange _ _ _ >>= _) = _
  rw [requireRange_eq_ok hready.start]
  · rfl
  · rw [Header.length_encode, hready.position, Nat.zero_add]
    exact h

/-- An image is assembled without a breach, whatever the script. -/
theorem agrees_compile (s : Script) : Agrees (compile s) s.compile fun _ => True := by
  refine .plain_bind ?_
  rintro ⟨nameHash, s⟩ -
  have hready := s.ready_startAssembly nameHash
  have hsections : Agrees
      ((Section.order s.target.revision).foldlM commit (s.startAssembly nameHash))
      ((Section.order s.target.revision).foldlM Assembly.commit (s.startAssembly nameHash))
      Assembly.Ready :=
    .foldlM _ hready fun a ha k _ => agrees_commit ha k
  refine hsections.bind fun written hwritten hready' => ?_
  obtain ⟨-, rfl⟩ := Assembly.fitsAll_of_foldlM_commit hready hwritten
  rw [finish_eq_ok hready' (s.headerSize_le_base_assembled nameHash)]
  exact .ok trivial

end GscAssembler.Checked
