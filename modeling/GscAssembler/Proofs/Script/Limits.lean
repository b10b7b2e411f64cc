import GscAssembler.Proofs.Script.References

/-!
# The limits of the format

A script that was built from a tree has an image exactly if it keeps the limits of the format, which
are listed in `Script.WithinLimits`.  Nothing else can go wrong any more: what is left of the checks of
the layout, that jumps have targets and that locals and imports are there, always succeeds for lowered
functions (`Lowered.sound_iff`).  All limits are stated before any section is written.  For the rows of
a table this takes no more than counting how often each entry is used (`Script.rowCount`).
-/

namespace GscAssembler.Control

open Code (Fails Frame Instruction Key Lands Opcode Placed PlacedJump ScriptFunction landingOf)
open Reference (TableKind Tables)

namespace Lowered

variable {tables : Tables} {f : ScriptFunction} {p : Program} {start : Nat}

/-- A lowered function finds everything it names, unless it has too many locals to declare. -/
theorem accepts (h : Lowered tables f p) {item : Key × Instruction} (hitem : item ∈ f.instructions)
    (hlocals : item.2 ≠ .locals) : (f.frame tables).Accepts item.2 := by
  rcases h.cases_of_mem hitem with heq | heq | hwell | ⟨_, _, heq, -⟩
  · exact absurd heq hlocals
  · rw [heq]; trivial
  · have himport : ∀ entry, item.2.uses? = some (.imports, entry) → entry < tables.imports.size := by
      intro entry hentry
      obtain ⟨value, hvalue⟩ := hwell.entries _ _ hentry
      obtain ⟨key, hkey, -⟩ := Option.map_eq_some_iff.mp hvalue
      rw [← Reference.Table.length_values]
      exact (List.getElem?_eq_some_iff.mp hkey).1
    generalize item.2 = i at hlocals hwell himport ⊢
    cases i with
    | localVariable code hash => exact Array.mem_def.mp (hwell.locals code hash rfl)
    | call code entry => exact himport entry rfl
    | functionPointer code entry => exact himport entry rfl
    | locals => exact absurd rfl hlocals
    | _ => trivial
  · rw [heq]; trivial

/-- The jumps of a lowered function have targets. -/
theorem exists_landing (h : Lowered tables f p) {q : Placed} (hq : q ∈ f.placedAt start)
    {code : Opcode} {target : Option Key} (hjump : q.instruction = .jump code target) :
    ∃ landing, landingOf (f.placedAt start) target = some landing := by
  obtain ⟨position, rfl, hlt⟩ := h.target_of_mem (f.mem_instructions_of_mem hq) hjump
  have hkey : Key.at position ∈ (f.placedAt start).map (·.key) := by
    have hkeys := congrArg (List.map (·.1)) (f.map_placedAt start)
    rw [List.map_map] at hkeys
    change Key.at position ∈ (f.placedAt start).map ((·.1) ∘ fun p => (p.key, p.instruction))
    have hinstructions := h.instructions
    rw [hinstructions, List.length_mapIdx] at hlt
    rw [hkeys, hinstructions]
    exact List.mem_map.mpr ⟨_, List.mem_mapIdx.mpr ⟨position, by omega, rfl⟩, rfl⟩
  obtain ⟨landing, hlanding, heq⟩ := List.mem_map.mp hkey
  have hsome : ((f.placedAt start).find? (·.key = Key.at position)).isSome := by
    rw [List.find?_isSome]
    exact ⟨landing, hlanding, by simpa using heq⟩
  exact Option.isSome_iff_exists.mp hsome

/-- A lowered function can be laid out at its place if it has not too many locals and its jumps are
within reach. -/
theorem sound_iff (h : Lowered tables f p) :
    f.Sound tables start ↔
      f.locals.size ≤ Code.maxLocals ∧ ∀ j ∈ f.jumpsAt start, j.InRange := by
  constructor
  · intro hsound
    have hlocals := hsound.accepts (Key.at 0, .locals) (by rw [h.instructions]; simp)
    exact ⟨by simpa [Frame.Accepts] using hlocals,
      fun j hj => ScriptFunction.inRange_of_mem_jumpsAt hsound hj⟩
  · rintro ⟨hlocals, hrange⟩
    refine ⟨fun item hitem => ?_, fun q hq code target hjump => ?_⟩
    · by_cases hdeclares : item.2 = .locals
      · rw [hdeclares]
        simpa [Frame.Accepts] using hlocals
      · exact h.accepts hitem hdeclares
    · obtain ⟨landing, hlanding⟩ := h.exists_landing hq hjump
      have hj : Code.jumpOf (f.placedAt start) q =
          some ⟨code, q.address, q.finish, landing.finish⟩ := by
        simp [Code.jumpOf, hjump, hlanding]
      exact ⟨_, hj, hrange _ (List.mem_filterMap.mpr ⟨q, hq, hj⟩)⟩

/-- Why a lowered function is refused. -/
theorem refused (h : Lowered tables f p) {e : CompileError} (he : f.Refused tables start e) :
    (∃ what count limit, e = .capacityExceeded what count limit) ∨
      ∃ function displacement, e = .jumpOutOfRange function displacement := by
  rcases he with ⟨item, hitem, hnot, hwhy⟩ | ⟨q, hq, hfails⟩
  · by_cases hdeclares : item.2 = .locals
    · exact .inl ⟨_, _, _, hwhy hdeclares⟩
    · exact absurd (h.accepts hitem hdeclares) hnot
  · rcases hfails with ⟨code, target, hjump, hnone, -⟩ | ⟨j, -, -, rfl⟩
    · obtain ⟨landing, hlanding⟩ := h.exists_landing hq hjump
      rw [hlanding] at hnone
      cases hnone
    · exact .inr ⟨_, _, rfl⟩

end Lowered

end GscAssembler.Control

namespace GscAssembler.Reference

/-- The number of rows of a table. -/
def Tables.rowCountOf (t : Tables) : TableKind → Nat
  | .strings => t.strings.rowCount
  | .imports => t.imports.rowCount
  | .globals => t.globals.rowCount
  | .debug => t.debug.rowCount

theorem Table.rowCount_eq_sum_range {α : Type} [Ord α] (t : Table α) :
    t.rowCount = ((List.range t.size).map fun i =>
      (((t.referencesAt? i).getD []).length + 249) / 250).sum := by
  have hrows := congrArg (List.map fun l => (l.length + 249) / 250) t.map_references
  rw [List.map_map, List.map_map] at hrows
  exact t.rowCount_eq_sum.trans (congrArg List.sum hrows)

theorem Tables.rowCountOf_eq_sum_range (t : Tables) (kind : TableKind) :
    t.rowCountOf kind = ((List.range (t.sizeOf kind)).map fun i =>
      (((t.referencesAt? kind i).getD []).length + 249) / 250).sum := by
  cases kind <;> exact Table.rowCount_eq_sum_range _

end GscAssembler.Reference

namespace GscAssembler.Script

open Bytes (align)
open Code (ScriptFunction)
open Image (Assembly Contents Section textAddresses)
open Reference (TableKind Tables)

/-- How many instructions use a table entry. -/
def useCount (s : Script) (kind : TableKind) (i : Nat) : Nat :=
  ((s.functions.toList.map (·.2)).flatMap (·.instructions)).countP
    fun item => item.2.uses? = some (kind, i)

/-- The rows that the uses of all entries of a table take, of at most 250 each. -/
def rowCount (s : Script) (kind : TableKind) : Nat :=
  ((List.range (s.tables.sizeOf kind)).map fun i => (s.useCount kind i + 249) / 250).sum

/-- Where the texts of the strings start on the legacy machine: behind the header and the name. -/
def textsStart (s : Script) : Nat :=
  align (s.target.headerSize + Contents.textSize s.settings.scriptName) 16

/-- The functions of a script with their starts.  These do not depend on the hash of its name. -/
def starts (s : Script) : List (ScriptFunction × Nat) :=
  s.placed 0

/-- The limits of the format. -/
structure WithinLimits (s : Script) : Prop where
  /-- Functions are counted with 16 bits. -/
  functions : s.functions.toList.length ≤ 65535
  /-- Locals are counted with a byte. -/
  locals : ∀ f ∈ s.functions.toList.map (·.2), f.locals.size ≤ 255
  /-- Displacements of jumps are signed numbers of 16 bits. -/
  jumps : ∀ p ∈ s.starts, ∀ j ∈ p.1.jumpsAt p.2,
    -32768 ≤ (j.landing - j.origin : Int) ∧ (j.landing - j.origin : Int) ≤ 32767
  /-- Import rows are counted with 16 bits. -/
  imports : s.rowCount .imports ≤ 65535
  /-- String rows are counted with 16 bits. -/
  strings : s.rowCount .strings ≤ 65535
  /-- Developer string rows are counted with 16 bits, on the machine that has them. -/
  debug : s.target.revision = .legacy → s.rowCount .debug ≤ 65535
  /-- Rows of global objects are counted with 16 bits, on the machine that has them. -/
  globals : s.target.revision = .rev36 → s.rowCount .globals ≤ 65535
  /-- Included scripts are counted with a byte on the legacy machine, else with 16 bits. -/
  includes : s.includes.size ≤ match s.target.revision with
    | .legacy => 255
    | .rev36 => 65535
  /-- The legacy machine on big-endian consoles has 16 bits for the address of a string. -/
  addresses : s.target = .legacyBig →
    ∀ address ∈ textAddresses s.textsStart s.tables.strings.values, address ≤ 65535
  /-- The legacy machine has 32 bits for the hash of the script's name. -/
  name : s.target.revision = .legacy → ∀ value,
    Name.literal? .legacy s.settings.scriptName = some value → value.toNat < 2 ^ 32

section Stages

variable (s : Script) (nameHash : UInt64)

theorem placed_eq_starts : s.placed nameHash = s.starts := by
  have hbase : (s.beforeCode nameHash).base = (s.beforeCode 0).base := by
    simp only [beforeCode]
    cases s.target.revision <;> rfl
  rw [starts, placed, placed, Assembly.placedFunctions, Assembly.placedFunctions,
    Assembly.entriesEnd, Assembly.entriesEnd, hbase, functions_beforeCode, functions_beforeCode,
    target_beforeCode, target_beforeCode]

theorem useCount_eq (kind : TableKind) (i : Nat) :
    ((Code.referencesFrom (s.placed nameHash)).filter
      fun r => r.table = kind ∧ r.entry = i).length = s.useCount kind i := by
  have huses : ∀ f : ScriptFunction, ∀ start,
      ((f.placedAt start).filterMap (Code.Placed.useAddress? f.target kind i)).length =
        f.instructions.countP fun item => item.2.uses? = some (kind, i) := by
    intro f start
    rw [← f.map_placedAt start, List.countP_map]
    induction f.placedAt start with
    | nil => rfl
    | cons p rest ih =>
        by_cases h : p.instruction.uses? = some (kind, i) <;>
          simp [Code.Placed.useAddress?, h, ih]
  rw [useCount, ← s.map_fst_placed nameHash, List.flatMap_map, List.countP_flatMap,
    ← List.length_map (f := (·.address)), Code.referencesFrom, List.filter_flatMap,
    List.map_flatMap, List.length_flatMap]
  congr 1
  refine List.map_congr_left fun p _ => ?_
  rw [Code.filter_referencesOf, huses]
  rfl

/-- After the functions were laid out, the tables have the rows that were counted. -/
theorem rowCountOf_stage (sections : List Section) (h : .exports ∉ sections) (kind : TableKind) :
    (sections.foldl Assembly.committed
      ((s.beforeCode nameHash).committed .exports)).tables.rowCountOf kind = s.rowCount kind := by
  generalize hstage : sections.foldl Assembly.committed
    ((s.beforeCode nameHash).committed .exports) = a
  have hsize : a.tables.sizeOf kind = s.tables.sizeOf kind := by
    rw [← hstage]
    exact ((Assembly.sameValues_foldl_committed (.exports :: sections) _).trans
      (s.sameValues_beforeCode nameHash)).sizeOf_eq kind
  rw [Tables.rowCountOf_eq_sum_range, rowCount, hsize]
  congr 1
  refine List.map_congr_left fun i hi => ?_
  have hreferences := s.referencesAt?_assembled nameHash kind (List.mem_range.mp hi)
  rw [assembled_eq, (Assembly.layouts_foldl_committed
    (Section.exports_notMem_afterExports s.target.revision) _).2] at hreferences
  rw [← hstage, (Assembly.layouts_foldl_committed h _).2, hreferences, Option.getD_some,
    List.length_map, useCount_eq]

/-- On the legacy machine, the strings start behind the header and the name. -/
theorem base_strings (hrevision : s.target.revision = .legacy) :
    ([Section.header, .name].foldl Assembly.committed (s.startAssembly nameHash)).base =
      s.textsStart := by
  have hbase : ∀ (a : Assembly) (k : Section),
      (a.committed k).base = align (a.base + (a.sectionBytes k).length) 16 := by
    intro a k
    have hle : a.base + (a.sectionBytes k).length ≤ align (a.base + (a.sectionBytes k).length) 16 :=
      Bytes.le_align (by decide)
    rw [Assembly.base_committed, Assembly.sectionGap, Bytes.sectionPadding, Bytes.sectionAlignment]
    omega
  have hheader : s.target.headerSize = 80 := by rw [Target.headerSize, hrevision]
  have hstart : ((s.startAssembly nameHash).committed .header).base = 80 := by
    rw [hbase, Assembly.sectionBytes, List.length_replicate]
    change align (0 + s.target.headerSize) 16 = 80
    rw [hheader]
    decide
  rw [List.foldl_cons, List.foldl_cons, List.foldl_nil, hbase, hstart, Assembly.sectionBytes,
    Image.length_textBytes, Assembly.scriptName_committed, textsStart, hheader]
  rfl

/-- The sections in front of the functions fit if their addresses do. -/
theorem fitsAll_beforeExports :
    (s.startAssembly nameHash).FitsAll (Section.beforeExports s.target.revision) ↔
      (s.target = .legacyBig →
        ∀ address ∈ textAddresses s.textsStart s.tables.strings.values, address ≤ 65535) := by
  have hbig : s.target = .legacyBig ↔ s.target.revision = .legacy ∧ s.target.isLittle = false := by
    obtain ⟨⟨⟨revision, order⟩, _⟩, _⟩ := s
    cases revision <;> cases order <;> simp [target, Target.legacyBig, Target.isLittle]
  cases hrevision : s.target.revision with
  | rev36 => simp [Section.beforeExports, Assembly.FitsAll, Assembly.Fits, hbig, hrevision]
  | legacy =>
      have hsame := Assembly.sameScript_foldl_committed [.header, .name] (s.startAssembly nameHash)
      have hvalues : ([Section.header, .name].foldl Assembly.committed
          (s.startAssembly nameHash)).tables.strings.values = s.tables.strings.values :=
        ((Assembly.sameValues_foldl_committed _ _).trans
          (Tables.sameValues_clearReferences _)).strings
      have htarget : ([Section.header, .name].foldl Assembly.committed
          (s.startAssembly nameHash)).target = s.target := hsame.target
      have hfits : ([Section.header, .name].foldl Assembly.committed
          (s.startAssembly nameHash)).Fits .strings ↔ (s.target.isLittle = true ∨
            ∀ address ∈ textAddresses s.textsStart s.tables.strings.values, address ≤ 65535) := by
        simp only [Assembly.Fits, htarget, hrevision, base_strings s nameHash hrevision, hvalues]
        rfl
      change True ∧ True ∧ _ ∧ True ↔ _
      rw [true_and, true_and, and_true]
      refine hfits.trans ?_
      rw [hbig, hrevision, ← Bool.not_eq_true]
      simp only [true_and]
      exact Decidable.or_iff_not_imp_left

/-- The sections behind the functions fit if their counts do. -/
theorem fitsAll_afterExports :
    ((s.beforeCode nameHash).committed .exports).FitsAll (Section.afterExports s.target.revision) ↔
      s.rowCount .imports ≤ 65535 ∧ s.rowCount .strings ≤ 65535 ∧
      (s.target.revision = .legacy → s.rowCount .debug ≤ 65535) ∧
      (s.target.revision = .rev36 → s.rowCount .globals ≤ 65535) ∧
      s.includes.size ≤ (match s.target.revision with
        | .legacy => 255
        | .rev36 => 65535) := by
  have hincludes : (s.beforeCode nameHash).includes.length = s.includes.size := by
    rw [(s.sameScript_beforeCode nameHash).includes]
    exact Array.length_toList
  have himports := s.rowCountOf_stage nameHash [] (by simp) .imports
  cases hrevision : s.target.revision with
  | legacy =>
      have hstrings := s.rowCountOf_stage nameHash [.imports, .includes] (by simp) .strings
      have hdebug := s.rowCountOf_stage nameHash [.imports, .includes, .stringFixups] (by simp) .debug
      simp only [List.foldl_cons, List.foldl_nil, Tables.rowCountOf] at himports hstrings hdebug
      simp only [Section.afterExports, Assembly.FitsAll, Assembly.Fits, Assembly.includes_committed,
        Assembly.target_committed, target_beforeCode, hrevision, himports, hstrings, hdebug, hincludes]
      simp [Image.countLimit, Image.legacyIncludeLimit]
      tauto
  | rev36 =>
      have hstrings := s.rowCountOf_stage nameHash [.imports] (by simp) .strings
      have hglobals := s.rowCountOf_stage nameHash [.imports, .strings, .includes] (by simp) .globals
      simp only [List.foldl_cons, List.foldl_nil, Tables.rowCountOf] at himports hstrings hglobals
      simp only [Section.afterExports, Assembly.FitsAll, Assembly.Fits, Assembly.includes_committed,
        Assembly.target_committed, target_beforeCode, hrevision, himports, hstrings, hglobals,
        hincludes]
      simp [Image.countLimit]
      tauto

/-- Which sections fit, for any script. -/
theorem fitsAll_iff :
    (s.startAssembly nameHash).FitsAll (Section.order s.target.revision) ↔
      (s.target = .legacyBig →
        ∀ address ∈ textAddresses s.textsStart s.tables.strings.values, address ≤ 65535) ∧
      (s.functions.toList.length ≤ 65535 ∧ ∀ p ∈ s.starts, p.1.Sound s.tables p.2) ∧
      s.rowCount .imports ≤ 65535 ∧ s.rowCount .strings ≤ 65535 ∧
      (s.target.revision = .legacy → s.rowCount .debug ≤ 65535) ∧
      (s.target.revision = .rev36 → s.rowCount .globals ≤ 65535) ∧
      s.includes.size ≤ (match s.target.revision with
        | .legacy => 255
        | .rev36 => 65535) := by
  have hexports : (s.beforeCode nameHash).Fits .exports ↔
      s.functions.toList.length ≤ 65535 ∧ ∀ p ∈ s.starts, p.1.Sound s.tables p.2 := by
    rw [← placed_eq_starts s nameHash]
    have hsound : ∀ p : ScriptFunction × Nat,
        p.1.Sound (s.beforeCode nameHash).tables p.2 ↔ p.1.Sound s.tables p.2 :=
      fun p => p.1.sound_congr (s.sameValues_beforeCode nameHash).imports p.2
    simp only [Assembly.Fits, functions_beforeCode, List.length_map, hsound]
    rfl
  rw [Section.order_eq_append, Assembly.fitsAll_append, fitsAll_beforeExports, ← hexports,
    ← fitsAll_afterExports s nameHash]
  rfl

end Stages

variable {s : Script}

/-- When the name of a script has a hash. -/
theorem exists_nameHash_iff :
    (∃ hashed, s.names.hash64 s.target.revision s.settings.scriptName = .ok hashed) ↔
      (s.target.revision = .legacy → ∀ value,
        Name.literal? .legacy s.settings.scriptName = some value → value.toNat < 2 ^ 32) := by
  unfold Name.Registry.hash64
  cases hrevision : s.target.revision with
  | legacy =>
      cases hliteral : Name.literal? .legacy s.settings.scriptName with
      | none => simp
      | some value =>
          by_cases hlarge : 0x100000000 ≤ value.toNat
          · simp only [hlarge, and_self, if_true, reduceCtorEq, exists_false, false_iff]
            intro hall
            exact absurd (hall trivial value rfl) (Nat.not_lt.mpr hlarge)
          · simp only [hlarge, and_false, if_false, Except.ok.injEq, exists_eq', true_iff]
            rintro - _ hvalue
            exact Option.some.inj hvalue ▸ Nat.lt_of_not_le hlarge
  | rev36 => cases Name.literal? .rev36 s.settings.scriptName <;> simp

theorem badHash_of_hash64 {e : CompileError}
    (h : s.names.hash64 s.target.revision s.settings.scriptName = .error e) :
    e = .badHash s.settings.scriptName := by
  unfold Name.Registry.hash64 at h
  split at h
  · split at h
    · exact (Except.error.inj h).symm
    · cases h
  · split at h <;> cases h

/-- A script of lowered functions keeps the limits if its name has a hash and its sections fit. -/
theorem withinLimits_iff (nameHash : UInt64)
    (hlowered : ∀ f ∈ s.functions.toList.map (·.2), ∃ p, Control.Lowered s.tables f p) :
    s.WithinLimits ↔
      (∃ hashed, s.names.hash64 s.target.revision s.settings.scriptName = .ok hashed) ∧
        (s.startAssembly nameHash).FitsAll (Section.order s.target.revision) := by
  have hmem : ∀ p ∈ s.starts, p.1 ∈ s.functions.toList.map (·.2) := fun p hp => by
    rw [← s.map_fst_placed 0]
    exact List.mem_map_of_mem hp
  have hsound : ∀ p ∈ s.starts, p.1.Sound s.tables p.2 ↔ p.1.locals.size ≤ 255 ∧
      ∀ j ∈ p.1.jumpsAt p.2, -32768 ≤ (j.landing - j.origin : Int) ∧
        (j.landing - j.origin : Int) ≤ 32767 := by
    intro p hp
    obtain ⟨program, hprogram⟩ := hlowered p.1 (hmem p hp)
    refine hprogram.sound_iff.trans (and_congr Iff.rfl ?_)
    refine forall₂_congr fun j _ => ?_
    simp only [Code.PlacedJump.InRange, Code.PlacedJump.displacement]
    omega
  rw [exists_nameHash_iff, fitsAll_iff]
  constructor
  · intro h
    refine ⟨h.name, h.addresses, ⟨h.functions, fun p hp => (hsound p hp).mpr ?_⟩, h.imports,
      h.strings, h.debug, h.globals, h.includes⟩
    exact ⟨h.locals p.1 (hmem p hp), h.jumps p hp⟩
  · rintro ⟨hname, haddresses, ⟨hfunctions, hall⟩, himports, hstrings, hdebug, hglobals, hincludes⟩
    refine ⟨hfunctions, fun f hf => ?_, fun p hp => ((hsound p hp).mp (hall p hp)).2, himports,
      hstrings, hdebug, hglobals, hincludes, haddresses, hname⟩
    rw [← s.map_fst_placed 0] at hf
    obtain ⟨p, hp, rfl⟩ := List.mem_map.mp hf
    exact ((hsound p hp).mp (hall p hp)).1

end GscAssembler.Script

namespace GscAssembler

open Lowering
open SyntaxTree (Node)

/-- Scripts that were built from trees fail to compile for the limits of the format only.  A script has
an image if and only if it keeps them all, and otherwise the error is about a count, the reach of a
jump or the hash of the script's name. -/
theorem compile_fails_for_limits_only {settings : Settings} {root : Node} {s : Script}
    (h : buildScript settings root = .ok s) :
    ((∃ c, s.compile = .ok c) ↔ s.WithinLimits) ∧
    ∀ e, s.compile = .error e →
      (∃ what count limit, e = .capacityExceeded what count limit) ∨
      (∃ function displacement, e = .jumpOutOfRange function displacement) ∨
      ∃ text, e = .badHash text := by
  have hlowered : ∀ f ∈ s.functions.toList.map (·.2), ∃ p, Control.Lowered s.tables f p :=
    fun f hf => ((Control.lowered_of_buildScript h).2 f hf).2
  cases hname : s.names.hash64 s.target.revision s.settings.scriptName with
  | error e =>
      have hcompile : s.compile = .error e := by rw [Script.compile_eq, hname]; rfl
      have hnot : ¬ s.WithinLimits := by
        rw [Script.withinLimits_iff 0 hlowered, hname]
        simp
      refine ⟨by simp [hcompile, hnot], fun e' he' => .inr (.inr ⟨s.settings.scriptName, ?_⟩)⟩
      rw [hcompile] at he'
      exact Except.error.inj he' ▸ Script.badHash_of_hash64 hname
  | ok hashed =>
      obtain ⟨nameHash, names⟩ := hashed
      have hlimits : s.WithinLimits ↔
          (s.startAssembly nameHash).FitsAll (Image.Section.order s.target.revision) := by
        rw [Script.withinLimits_iff nameHash hlowered, hname]
        simp
      by_cases hfits : (s.startAssembly nameHash).FitsAll (Image.Section.order s.target.revision)
      · have hcompile := Script.compile_of_fits hname hfits
        exact ⟨by simp [hcompile, hlimits, hfits], by simp [hcompile]⟩
      · obtain ⟨e, hcompile, before, k, after, horder, hrejects⟩ :=
          Script.compile_of_not_fits hname hfits
        refine ⟨by simp [hcompile, hlimits, hfits], fun e' he' => ?_⟩
        rw [hcompile] at he'
        obtain rfl := Except.error.inj he'
        rcases hrejects with hcapacity | ⟨rfl, p, hp, hrefused⟩
        · exact .inl hcapacity
        · have hvalues := (Image.Assembly.sameValues_foldl_committed before
            (s.startAssembly nameHash)).trans (Reference.Tables.sameValues_clearReferences _)
          have hf := List.mem_map_of_mem (f := (·.1)) hp
          rw [Image.Assembly.placedFunctions, Code.map_placeFunctions,
            (Image.Assembly.sameScript_foldl_committed before _).functions] at hf
          obtain ⟨program, hprogram⟩ := hlowered p.1 hf
          exact (hprogram.refused ((p.1.refused_congr hvalues.imports p.2 _).mp hrefused)).imp id .inl

/-- A script with a loop keeps the limits. -/
theorem compile_fails_for_limits_only_loopScript :
    ∃ s c, buildScript {} Control.loopScript = .ok s ∧ s.compile = .ok c ∧ s.WithinLimits := by
  obtain ⟨s, c, hbuild, hcompile, -⟩ := Control.exists_compiled_loopScript
  exact ⟨s, c, hbuild, hcompile, (compile_fails_for_limits_only hbuild).1.mp ⟨c, hcompile⟩⟩

end GscAssembler
