import GscAssembler.Proofs.Name.Folding
import GscAssembler.Proofs.Script.References

/-!
# Texts as the machine reads them

An image stores a text as its UTF-8 bytes and a zero.  The machine, which knows the address alone,
takes the bytes up to the next zero (`terminatedAt`): it sees a text up to its first NUL.  No byte of
another character is zero, so that texts without NUL are seen as they are, and different ones as
different ones (`FoundAt`).

An instruction that pushes a string finds its text through the rows of the loaded image
(`Loaded.behind?`).  Only rows of the entry that it uses list its operand, so what it pushes is the
text of that entry.
-/

namespace GscAssembler.Text

/-! ## Texts up to their first NUL -/

/-- Whether no character of a text is NUL. -/
def NulFree (text : String) : Prop :=
  '\x00' ∉ text.toList

instance (text : String) : Decidable (NulFree text) :=
  inferInstanceAs (Decidable ('\x00' ∉ text.toList))

/-- The characters before the first NUL. -/
def beforeNul (text : String) : String :=
  .ofList (text.toList.takeWhile (· ≠ '\x00'))

theorem beforeNul_eq_self_iff {text : String} : beforeNul text = text ↔ NulFree text := by
  rw [beforeNul, ← String.toList_inj, String.toList_ofList, List.takeWhile_eq_self_iff, NulFree]
  constructor
  · intro hall hmem
    simpa using hall _ hmem
  · intro hfree c hc
    exact decide_eq_true fun hnul => hfree (hnul ▸ hc)

theorem utf8_injective : Function.Injective utf8 := by
  intro text other h
  have hbytes : text.toByteArray = other.toByteArray := ByteArray.ext (Array.toList_inj.mp h)
  exact String.toByteArray_inj.mp hbytes

/-- No byte of another character is zero. -/
theorem zero_notMem_utf8EncodeChar {c : Char} (h : c ≠ '\x00') :
    (0 : UInt8) ∉ String.utf8EncodeChar c := by
  have hpos : c.val.toNat ≠ 0 := fun hzero => h (Char.toNat_inj.mp hzero)
  have hbyte : ∀ n, n % 256 ≠ 0 → (0 : UInt8) ≠ UInt8.ofNat n := by
    intro n hn heq
    exact hn (by simpa using congrArg UInt8.toNat heq.symm)
  simp only [String.utf8EncodeChar]
  split_ifs <;> simp only [List.mem_cons, List.not_mem_nil, or_false, not_or] <;>
    (repeat' apply And.intro) <;> exact hbyte _ (by omega)

/-- The bytes before the first zero are those of the characters before the first NUL. -/
theorem takeWhile_utf8 (text : String) :
    (utf8 text).takeWhile (· ≠ 0) = utf8 (beforeNul text) := by
  rw [utf8_eq_flatMap, utf8_eq_flatMap, beforeNul, String.toList_ofList]
  induction text.toList with
  | nil => rfl
  | cons c rest ih =>
      rw [List.flatMap_cons]
      by_cases hnul : c = '\x00'
      · -- both sides end here, as NUL is the one byte zero
        subst hnul
        rfl
      · have hnonzero : ∀ b ∈ String.utf8EncodeChar c, decide (b ≠ 0) = true := by
          intro b hb
          exact decide_eq_true fun hzero => zero_notMem_utf8EncodeChar hnul (hzero ▸ hb)
        rw [List.takeWhile_append_of_pos hnonzero, ih, List.takeWhile_cons, if_pos (by simpa),
          List.flatMap_cons]

end GscAssembler.Text

namespace GscAssembler.Image

open Bytes (slice)
open Text (NulFree beforeNul utf8)

/-! ## Texts in images -/

/-- The bytes from an address up to the next zero. -/
def terminatedAt (image : Array UInt8) (address : Nat) : List UInt8 :=
  (image.toList.drop address).takeWhile (· ≠ 0)

/-- Whether a text is read at an address: up to its first NUL, and so as a whole if it has none. -/
structure FoundAt (image : Array UInt8) (address : Nat) (text : String) : Prop where
  upToNul : terminatedAt image address = utf8 (beforeNul text)
  whole_iff : terminatedAt image address = utf8 text ↔ NulFree text

/-- A text that is stored with its zero is read. -/
theorem foundAt_of_slice {image : Array UInt8} {address : Nat} {text : String}
    (h : slice image address (Contents.textSize text) = textBytes text) :
    FoundAt image address text := by
  obtain ⟨after, hafter⟩ : ∃ after, image.toList.drop address = utf8 text ++ 0 :: after := by
    have hsplit := List.take_append_drop (Contents.textSize text) (image.toList.drop address)
    rw [← Bytes.slice_eq_take_drop, h, textBytes, List.append_assoc] at hsplit
    exact ⟨_, hsplit.symm⟩
  have hread : terminatedAt image address = utf8 (beforeNul text) := by
    rw [terminatedAt, hafter, List.takeWhile_append, ← Text.takeWhile_utf8]
    split_ifs with hall
    · rw [(List.takeWhile_prefix _).eq_of_length hall]
      simp
    · rfl
  refine ⟨hread, ?_⟩
  rw [hread, Text.utf8_injective.eq_iff, Text.beforeNul_eq_self_iff]

/-- The bytes of the string that the rows put behind an operand. -/
def Loaded.behind? (l : Loaded) (image : Array UInt8) (operand : Nat) : Option (List UInt8) :=
  (l.strings.find? (operand ∈ ·.2)).map fun row => terminatedAt image row.1

end GscAssembler.Image

namespace GscAssembler.Script

open Image (FoundAt Loaded keyedRows load terminatedAt)
open Reference (Entry)

variable {s : Script} (nameHash : UInt64)
  (hfits : (s.startAssembly nameHash).FitsAll (Image.Section.order s.target.revision))

include hfits in
/-- Each string of a finished image has the address at which it is read. -/
theorem foundAt_string {e : Entry String}
    (he : e ∈ (s.assembled nameHash).tables.strings.entries.toList) :
    ∃ address, e.address = some address ∧
      FoundAt (s.assembled nameHash).finalImage address e.value := by
  obtain ⟨address, haddress, htext, -, -⟩ := string_assembled nameHash hfits he
  exact ⟨address, haddress, Image.foundAt_of_slice htext⟩

include hfits in
/-- Behind an operand that refers to an entry, the rows put the entry's text. -/
theorem behind?_of_mem_references {loaded : Loaded}
    (hrows : loaded.strings =
      keyedRows (fun e => e.address.getD 0) (s.assembled nameHash).tables.strings)
    {entry operand : Nat} {e : Entry String}
    (hget : (s.assembled nameHash).tables.strings.get? entry = some e)
    (hoperand : operand ∈ e.references.toList) :
    loaded.behind? (s.assembled nameHash).finalImage operand =
      some (Text.utf8 (Text.beforeNul e.value)) := by
  have hreferences : ∀ {j other}, (s.assembled nameHash).tables.strings.get? j = some other →
      operand ∈ other.references.toList →
      operand ∈ ((s.assembled nameHash).tables.referencesAt? .strings j).getD [] := by
    intro j other hother hmem
    simpa [Reference.Tables.referencesAt?, Reference.Table.referencesAt?, hother] using hmem
  -- the entry has a row with the operand, and so a row is found
  obtain ⟨row, hrow, hin⟩ : ∃ row ∈ e.rows, operand ∈ row := by
    rwa [← e.flatten_rows, List.mem_flatten] at hoperand
  have he : e ∈ (s.assembled nameHash).tables.strings.entries.toList :=
    Array.mem_toList_iff.mpr (Array.mem_of_getElem? hget)
  have hlisted : (e.address.getD 0, row) ∈ loaded.strings := by
    rw [hrows]
    exact List.mem_flatMap.mpr ⟨e, he, List.mem_map_of_mem hrow⟩
  have hsome : (loaded.strings.find? (operand ∈ ·.2)).isSome := by
    rw [List.find?_isSome]
    exact ⟨_, hlisted, decide_eq_true hin⟩
  obtain ⟨found, hfound⟩ := Option.isSome_iff_exists.mp hsome
  -- whichever row it is, it is one of this entry
  have hkey : found.1 = e.address.getD 0 := by
    have hmem := List.mem_of_find?_eq_some hfound
    rw [hrows] at hmem
    obtain ⟨other, hother, hmem⟩ := List.mem_flatMap.mp hmem
    obtain ⟨otherRow, hotherRow, rfl⟩ := List.mem_map.mp hmem
    obtain ⟨j, hj⟩ := List.getElem?_of_mem hother
    have hgetOther : (s.assembled nameHash).tables.strings.get? j = some other := by
      rwa [Array.getElem?_toList] at hj
    have hinOther : operand ∈ other.references.toList := by
      rw [← other.flatten_rows]
      have hlists := List.find?_some hfound
      exact List.mem_flatten_of_mem hotherRow (of_decide_eq_true hlists)
    obtain ⟨-, rfl⟩ := entry_unique nameHash (hreferences hget hoperand)
      (hreferences hgetOther hinOther)
    obtain rfl : e = other := Option.some.inj (hget.symm.trans hgetOther)
    rfl
  obtain ⟨address, haddress, htext⟩ := foundAt_string nameHash hfits he
  rw [Loaded.behind?, hfound, Option.map_some, hkey, haddress, Option.getD_some, htext.upToNul]

include hfits in
/-- Loading recovers the rows of the strings, and on the legacy machine the addresses at which the
name of the script and the included paths are read. -/
theorem texts_load_assembled (hsize : (s.assembled nameHash).finalImage.size < 2 ^ 32) :
    ∃ loaded, load (s.assembled nameHash).finalImage = some loaded ∧
      loaded.strings =
        keyedRows (fun e => e.address.getD 0) (s.assembled nameHash).tables.strings ∧
      (s.target.isLegacy →
        FoundAt (s.assembled nameHash).finalImage loaded.header.nameOffset s.settings.scriptName ∧
        List.Forall₂ (fun path address => FoundAt (s.assembled nameHash).finalImage address path)
          s.includes.toList loaded.includes) := by
  refine ⟨_, load_assembled nameHash hfits hsize, rfl, fun hlegacy => ?_⟩
  have hrevision : s.target.revision = .legacy := of_decide_eq_true hlegacy
  constructor
  · simp only [hrevision, Image.Header.stored]
    exact Image.foundAt_of_slice (slice_name_assembled nameHash hrevision)
  · rw [if_pos hlegacy]
    exact (read_legacyIncludes nameHash hsize hrevision).imp fun _ _ => Image.foundAt_of_slice

end GscAssembler.Script

namespace GscAssembler

open Image (FoundAt keyedRows load)
open Lowering
open SyntaxTree (Node)
open Text (NulFree beforeNul utf8)

/-- Whether an instruction of a compiled script, whose operand has a given address, pushes a text. -/
def CompiledScript.Pushes (c : CompiledScript) (target : Target) (operand : Nat) (text : String) :
    Prop :=
  ∃ layout ∈ c.layouts, ∃ p ∈ layout.instructions, ∃ code entry,
    p.instruction = .string code entry ∧ p.instruction.useAddress target p.address = operand ∧
    c.tables.strings.values[entry]? = some text

/-- The instructions that push strings refer to the entries of their texts. -/
theorem exists_of_pushes {settings : Settings} {root : Node} {s : Script}
    (h : buildScript settings root = .ok s) {nameHash : UInt64} {names : Name.Registry}
    {operand : Nat} {text : String}
    (hpushes : (s.compiled nameHash names).Pushes s.target operand text) :
    ∃ entry e, (s.assembled nameHash).tables.strings.get? entry = some e ∧ e.value = text ∧
      operand ∈ e.references.toList := by
  obtain ⟨layout, hlayout, p, hp, code, entry, hstring, rfl, htext⟩ := hpushes
  obtain ⟨e, hget, rfl⟩ : ∃ e, (s.assembled nameHash).tables.strings.get? entry = some e ∧
      e.value = text := by
    rw [Reference.Table.getElem?_values] at htext
    exact Option.map_eq_some_iff.mp htext
  refine ⟨entry, e, hget, rfl, ?_⟩
  obtain ⟨placed, hplaced, rfl, htarget, -⟩ := Control.exists_lowered_of_layout h hlayout
  have hreference : (⟨.strings, entry, p.instruction.useAddress s.target p.address⟩ :
      Reference.TableReference) ∈ Code.referencesFrom (s.placed nameHash) := by
    refine List.mem_flatMap.mpr ⟨placed, hplaced, List.mem_filterMap.mpr ⟨p, hp, ?_⟩⟩
    rw [htarget, Code.Instruction.reference_eq, hstring]
    rfl
  have hentry : entry < s.tables.sizeOf .strings := by
    rw [← (Script.sameValues_assembled nameHash).sizeOf_eq]
    exact (Array.getElem?_eq_some_iff.mp hget).1
  have hlist := s.referencesAt?_assembled nameHash .strings hentry
  simp only [Reference.Tables.referencesAt?, Reference.Table.referencesAt?, hget,
    Option.map_some, Option.some.injEq] at hlist
  rw [hlist]
  exact List.mem_map.mpr ⟨_, List.mem_filter.mpr ⟨hreference, by simp⟩, rfl⟩

/-- Each instruction that pushes a string has a text to push. -/
theorem exists_pushes {settings : Settings} {root : Node} {s : Script}
    (h : buildScript settings root = .ok s) {nameHash : UInt64} {names : Name.Registry}
    {layout : Code.FunctionLayout} (hlayout : layout ∈ (s.compiled nameHash names).layouts)
    {p : Code.Placed} (hp : p ∈ layout.instructions) {code : Code.Opcode} {entry : Nat}
    (hstring : p.instruction = .string code entry) :
    ∃ text, (s.compiled nameHash names).Pushes s.target
      (p.instruction.useAddress s.target p.address) text := by
  obtain ⟨placed, hplaced, rfl, -, program, hlowered⟩ := Control.exists_lowered_of_layout h hlayout
  have huses : p.instruction.uses? = some (.strings, entry) := by rw [hstring]; rfl
  obtain ⟨value, hvalue⟩ := (hlowered.wellNamed (placed.1.mem_instructions_of_mem hp) huses).entries
    _ _ huses
  obtain ⟨text, htext, -⟩ := Option.map_eq_some_iff.mp hvalue
  refine ⟨text, _, hlayout, p, hp, code, entry, hstring, rfl, ?_⟩
  rw [show (s.compiled nameHash names).tables.strings.values = _ from
    (Script.sameValues_assembled nameHash).strings]
  exact htext

/-- Strings survive the image as the machine reads them, up to their first NUL.  In the image of a
tree, each string has an address at which it is read.  From an image shorter than 2 ^ 32 bytes, loading
recovers the rows with these addresses, and on the legacy machine the addresses at which the script's
name and the included paths are read.  What an instruction pushes is the text of the entry that it
uses; so instructions with different texts that have no NUL push different strings. -/
theorem strings_read_back {settings : Settings} {root : Node} {c : CompiledScript}
    (h : compileTree settings root = .ok c) :
    ∃ s, buildScript settings root = .ok s ∧
      (∀ e ∈ c.tables.strings.entries.toList, ∃ address, e.address = some address ∧
        FoundAt c.image address e.value) ∧
      (c.image.size < 2 ^ 32 → ∃ loaded, load c.image = some loaded ∧
        loaded.strings = keyedRows (fun e => e.address.getD 0) c.tables.strings ∧
        (settings.target.isLegacy →
          FoundAt c.image loaded.header.nameOffset settings.scriptName ∧
          List.Forall₂ (fun path address => FoundAt c.image address path)
            s.includes.toList loaded.includes) ∧
        (∀ layout ∈ c.layouts, ∀ p ∈ layout.instructions, ∀ code entry,
          p.instruction = .string code entry →
          ∃ text, c.Pushes settings.target (p.instruction.useAddress settings.target p.address)
            text) ∧
        (∀ operand text, c.Pushes settings.target operand text →
          loaded.behind? c.image operand = some (utf8 (beforeNul text))) ∧
        ∀ operand text operand' text', c.Pushes settings.target operand text →
          c.Pushes settings.target operand' text' → NulFree text → NulFree text' →
          loaded.behind? c.image operand = loaded.behind? c.image operand' → text = text') := by
  obtain ⟨s, hbuild, hcompile⟩ := Control.except_bind_eq_ok.mp h
  obtain ⟨-, -, hsettings, -, -⟩ := Control.exists_of_buildScript hbuild
  obtain ⟨nameHash, names, -, hfits, rfl⟩ := Script.compile_eq_ok hcompile
  subst hsettings
  refine ⟨s, hbuild, fun e he => Script.foundAt_string nameHash hfits he, fun hsize => ?_⟩
  obtain ⟨loaded, hload, hrows, hpaths⟩ := Script.texts_load_assembled nameHash hfits hsize
  have hread : ∀ operand text, (s.compiled nameHash names).Pushes s.target operand text →
      loaded.behind? (s.compiled nameHash names).image operand = some (utf8 (beforeNul text)) := by
    intro operand text hpushes
    obtain ⟨entry, e, hget, rfl, hoperand⟩ := exists_of_pushes hbuild hpushes
    exact Script.behind?_of_mem_references nameHash hfits hrows hget hoperand
  refine ⟨loaded, hload, hrows, hpaths,
    fun _ hlayout _ hp _ _ hstring => exists_pushes hbuild hlayout hp hstring, hread, ?_⟩
  intro operand text operand' text' hpushes hpushes' hfree hfree' hsame
  rw [hread _ _ hpushes, hread _ _ hpushes', Text.beforeNul_eq_self_iff.mpr hfree,
    Text.beforeNul_eq_self_iff.mpr hfree'] at hsame
  exact Text.utf8_injective (Option.some.inj hsame)

/-- A script with two functions, each of which returns a text. -/
def twoTexts (first second : String) : Node :=
  let returning (name text : String) : Node :=
    .mk "function" (some name) none [
      .mk "block" none none [.mk "return" none none [Control.leafNode "stringLiteral" text]]]
  .mk "script" none none [returning "f" first, returning "g" second]

/-- Two texts, of which one is not ASCII, are read back as they are and kept apart. -/
theorem strings_read_back_twoTexts :
    ∃ c loaded operand operand', compileTree {} (twoTexts "é" "e") = .ok c ∧
      load c.image = some loaded ∧
      c.Pushes .legacyLittle operand "é" ∧ c.Pushes .legacyLittle operand' "e" ∧
      loaded.behind? c.image operand = some (utf8 "é") ∧
      loaded.behind? c.image operand ≠ loaded.behind? c.image operand' := by
  have hpushes : ∀ (c : CompiledScript) (entry : Nat) (text : String),
      (∃ layout ∈ c.layouts, ∃ p ∈ layout.instructions, p.instruction = .string .getString entry) →
      c.tables.strings.values[entry]? = some text →
      ∃ operand, c.Pushes .legacyLittle operand text := by
    rintro c entry text ⟨layout, hlayout, p, hp, hstring⟩ htext
    exact ⟨_, layout, hlayout, p, hp, _, entry, hstring, rfl, htext⟩
  obtain ⟨c, hcompile, hcheck⟩ := @Control.exists_of_compileTree {} (twoTexts "é" "e")
    (fun c => decide (c.image.size < 2 ^ 32 ∧ c.tables.strings.values = ["é", "e"] ∧
      (∃ layout ∈ c.layouts, ∃ p ∈ layout.instructions, p.instruction = .string .getString 0) ∧
      ∃ layout ∈ c.layouts, ∃ p ∈ layout.instructions, p.instruction = .string .getString 1))
    (by decide +kernel)
  obtain ⟨hsize, hvalues, hfirst, hsecond⟩ := of_decide_eq_true hcheck
  obtain ⟨operand, hoperand⟩ := hpushes c 0 "é" hfirst (by rw [hvalues]; rfl)
  obtain ⟨operand', hoperand'⟩ := hpushes c 1 "e" hsecond (by rw [hvalues]; rfl)
  obtain ⟨s, -, -, hloads⟩ := strings_read_back hcompile
  obtain ⟨loaded, hload, -, -, -, hread, hapart⟩ := hloads hsize
  refine ⟨c, loaded, operand, operand', hcompile, hload, hoperand, hoperand', ?_, fun hsame => ?_⟩
  · rw [hread _ _ hoperand, Text.beforeNul_eq_self_iff.mpr (by decide)]
  · have := hapart _ _ _ _ hoperand hoperand' (by decide) (by decide) hsame
    revert this
    decide

/-- Two texts with the same characters before a NUL are read as the same string, which is neither. -/
theorem texts_with_nul_read_alike :
    ∃ c, compileTree {} (twoTexts "a\x00b" "a\x00c") = .ok c ∧
      c.tables.strings.entries.toList.map
          (fun e => (e.value, Image.terminatedAt c.image (e.address.getD 0))) =
        [("a\x00b", utf8 "a"), ("a\x00c", utf8 "a")] := by
  obtain ⟨c, hcompile, hread⟩ := @Control.exists_of_compileTree {} (twoTexts "a\x00b" "a\x00c")
    (fun c => decide (c.tables.strings.entries.toList.map
        (fun e => (e.value, Image.terminatedAt c.image (e.address.getD 0))) =
      [("a\x00b", utf8 "a"), ("a\x00c", utf8 "a")])) (by decide +kernel)
  exact ⟨c, hcompile, of_decide_eq_true hread⟩

end GscAssembler
