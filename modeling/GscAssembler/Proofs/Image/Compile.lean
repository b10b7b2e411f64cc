import GscAssembler.Proofs.Image.Commit

/-!
# The finished image

A script compiles when its name can be hashed and every section fits in its turn.  The finished image
is then the sections one behind the other, each as its `sectionBytes` and zeros up to its end, with the
encoded header in place of the first (`compile_eq_ok`, `slice_section`, `slice_header`).
-/

namespace GscAssembler.Image

open Bytes (Buffer slice)

/-! ## The encoded header -/

theorem Header.fieldsSize_le (h : Header) (target : Target) :
    fieldsSize (h.fields target) ≤ target.headerSize := by
  obtain ⟨revision, order⟩ := target
  cases revision <;> cases order <;>
    simp [fieldsSize, fields, legacyFields, rev36Fields, Target.headerSize, Target.isLittle]

theorem Header.encode_eq (h : Header) (target : Target) :
    h.encode target = fieldBytes target.order (h.fields target) ++
      List.replicate (target.headerSize - fieldsSize (h.fields target)) 0 := by
  have hle := h.fieldsSize_le target
  have hposition : (({ order := target.order } : Buffer).append
      (fieldBytes target.order (h.fields target))).position = fieldsSize (h.fields target) := by
    simp [Buffer.position]
  rw [encode]
  simp only [foldl_word_eq_append]
  rw [Buffer.padTo_eq_append (by rwa [hposition]), hposition]
  simp

theorem Header.length_encode (h : Header) (target : Target) :
    (h.encode target).length = target.headerSize := by
  have hle := h.fieldsSize_le target
  rw [encode_eq, List.length_append, length_fieldBytes, List.length_replicate]
  omega

namespace Assembly

/-! ## Records -/

/-- The record of a section, if it comes next. -/
def recordOf (a : Assembly) (s : Section) : SectionRecord :=
  ⟨s, a.base, (a.sectionBytes s).length + a.sectionGap s⟩

/-- The records of sections that are committed one after the other. -/
def recordsFrom : Assembly → List Section → List SectionRecord
  | _, [] => []
  | a, s :: rest => a.recordOf s :: (a.committed s).recordsFrom rest

theorem records_foldl_committed (sections : List Section) :
    ∀ a : Assembly, (sections.foldl committed a).records.toList =
      a.records.toList ++ a.recordsFrom sections := by
  induction sections with
  | nil => intro a; simp [recordsFrom]
  | cons s rest ih => intro a; simp [recordsFrom, ih, committed, recordOf]

theorem map_kind_recordsFrom (sections : List Section) :
    ∀ a : Assembly, (a.recordsFrom sections).map (·.kind) = sections := by
  induction sections with
  | nil => intro a; rfl
  | cons s rest ih => intro a; simp [recordsFrom, recordOf, ih]

theorem base_foldl_committed (sections : List Section) :
    ∀ a : Assembly, (sections.foldl committed a).base =
      a.base + ((a.recordsFrom sections).map (·.size)).sum := by
  induction sections with
  | nil => intro a; rfl
  | cons s rest ih =>
      intro a
      rw [List.foldl_cons, ih, base_committed, recordsFrom, List.map_cons, List.sum_cons,
        Nat.add_assoc]
      rfl

/-- A record among others is that of its section in its turn. -/
theorem recordsFrom_eq_append {before after : List SectionRecord} {r : SectionRecord} :
    ∀ {a : Assembly} {sections : List Section}, a.recordsFrom sections = before ++ r :: after →
      sections = before.map (·.kind) ++ r.kind :: after.map (·.kind) ∧
        before = a.recordsFrom (before.map (·.kind)) ∧
        r = ((before.map (·.kind)).foldl committed a).recordOf r.kind := by
  induction before with
  | nil =>
      intro a sections h
      cases sections with
      | nil => simp [recordsFrom] at h
      | cons s rest =>
          simp only [recordsFrom, List.nil_append, List.cons.injEq] at h
          obtain ⟨rfl, rfl⟩ := h
          exact ⟨by simp [map_kind_recordsFrom, recordOf], rfl, rfl⟩
  | cons first before ih =>
      intro a sections h
      cases sections with
      | nil => simp [recordsFrom] at h
      | cons s rest =>
          simp only [recordsFrom, List.cons_append, List.cons.injEq] at h
          obtain ⟨rfl, h⟩ := h
          obtain ⟨hsections, hbefore, hr⟩ := ih h
          exact ⟨by rw [hsections]; rfl, congrArg (a.recordOf s :: ·) hbefore, hr⟩

/-! ## The image grows -/

theorem image_foldl_committed (sections : List Section) :
    ∀ a : Assembly, ∃ tail, (sections.foldl committed a).image = a.image.append tail := by
  induction sections with
  | nil => intro a; exact ⟨[], by simp⟩
  | cons s rest ih =>
      intro a
      obtain ⟨tail, htail⟩ := ih (a.committed s)
      exact ⟨_, by rw [List.foldl_cons, htail, committed, Buffer.append_append]⟩

/-- The image of an assembly that has all its sections, with its header filled in. -/
def finalImage (a : Assembly) : Array UInt8 :=
  (a.image.patch 0 (a.header.encode a.target)).bytes

/-- What no section changes. -/
structure SameScript (a b : Assembly) : Prop where
  target : b.target = a.target
  scriptName : b.scriptName = a.scriptName
  includes : b.includes = a.includes
  functions : b.functions = a.functions

theorem sameScript_foldl_committed (sections : List Section) :
    ∀ a : Assembly, a.SameScript (sections.foldl committed a) := by
  induction sections with
  | nil => intro a; exact ⟨rfl, rfl, rfl, rfl⟩
  | cons s rest ih =>
      intro a
      obtain ⟨htarget, hname, hincludes, hfunctions⟩ := ih (a.committed s)
      constructor <;> simp_all

theorem size_finalImage {a : Assembly} (hready : a.Ready) : a.finalImage.size = a.base := by
  rw [finalImage, Buffer.size_patch, ← hready.position, Buffer.position, hready.start,
    Nat.zero_add]

/-- A section behind the header is found in the finished image, with the zeros up to its end. -/
theorem slice_padded {a : Assembly} (before after : List Section) (s : Section)
    (hready : a.Ready) (hbehind : a.target.headerSize ≤ (before.foldl committed a).base) :
    slice ((before ++ s :: after).foldl committed a).finalImage (before.foldl committed a).base
        (((before.foldl committed a).sectionBytes s).length +
          (before.foldl committed a).sectionGap s) =
      (before.foldl committed a).sectionBytes s ++
        List.replicate ((before.foldl committed a).sectionGap s) 0 := by
  have hat := ready_foldl_committed before hready
  have htarget := (sameScript_foldl_committed (before ++ s :: after) a).target
  rw [finalImage, htarget, List.foldl_append, List.foldl_cons]
  generalize before.foldl committed a = b at hbehind hat ⊢
  obtain ⟨tail, htail⟩ := image_foldl_committed after (b.committed s)
  have himage : ((after.foldl committed (b.committed s)).image).bytes.toList =
      b.image.bytes.toList ++ (b.sectionBytes s ++ List.replicate (b.sectionGap s) 0) ++ tail := by
    rw [htail, committed]
    simp
  have hlength : b.image.bytes.toList.length = b.base := by
    rw [Array.length_toList, ← hat.position, Buffer.position, hat.start, Nat.zero_add]
  have hcount : (b.sectionBytes s).length + b.sectionGap s =
      (b.sectionBytes s ++ List.replicate (b.sectionGap s) 0).length := by simp
  rw [Buffer.patch, Bytes.slice_overwrite_of_outside _ _ (.inr (by
    rw [Header.length_encode]; omega)), ← hlength, hcount]
  exact Bytes.slice_between himage

/-- The bytes of a section behind the header are found in the finished image. -/
theorem slice_section {a : Assembly} (before after : List Section) (s : Section)
    (hready : a.Ready) (hbehind : a.target.headerSize ≤ (before.foldl committed a).base) :
    slice ((before ++ s :: after).foldl committed a).finalImage (before.foldl committed a).base
        ((before.foldl committed a).sectionBytes s).length =
      (before.foldl committed a).sectionBytes s :=
  Bytes.slice_of_slice_eq (show _ = [] ++ _ ++ _ from slice_padded before after s hready hbehind)

/-- The encoded header stands at the start of the finished image. -/
theorem slice_header {a : Assembly} (hready : a.Ready) (h : a.target.headerSize ≤ a.base) :
    slice a.finalImage 0 a.target.headerSize = a.header.encode a.target := by
  have hsize : a.image.bytes.size = a.base := by
    rw [← hready.position, Buffer.position, hready.start, Nat.zero_add]
  rw [finalImage, Buffer.patch, hready.start, ← a.header.length_encode a.target]
  exact Bytes.slice_overwrite_self (by rw [Header.length_encode]; omega)

end Assembly

end GscAssembler.Image

namespace GscAssembler

open Bytes (slice)
open Code (Chain ScriptFunction)
open Image (Assembly Section)
open Reference (Table)

namespace Script

/-- The assembly of a script with all its sections, for a hash of its name. -/
def assembled (s : Script) (nameHash : UInt64) : Assembly :=
  (Section.order s.target.revision).foldl Assembly.committed (s.startAssembly nameHash)

/-- What is known of a finished image. -/
def compiled (s : Script) (nameHash : UInt64) (names : Name.Registry) : CompiledScript where
  target := s.target
  scriptName := s.settings.scriptName
  includes := s.includes.toList
  image := (s.assembled nameHash).finalImage
  header := (s.assembled nameHash).header
  layouts := (s.assembled nameHash).layouts
  records := (s.assembled nameHash).records.toList
  tables := (s.assembled nameHash).tables
  names := names

theorem ready_startAssembly (s : Script) (nameHash : UInt64) : (s.startAssembly nameHash).Ready :=
  ⟨rfl, rfl, rfl⟩

theorem ready_assembled (s : Script) (nameHash : UInt64) : (s.assembled nameHash).Ready :=
  Assembly.ready_foldl_committed _ (s.ready_startAssembly nameHash)

section Finished

variable {s : Script} (nameHash : UInt64) {before after : List Section} {k : Section}

/-- Each section starts behind the header, unless it is the header. -/
theorem headerSize_le_base_foldl (horder : Section.order s.target.revision = before ++ k :: after)
    (hk : k ≠ .header) :
    s.target.headerSize ≤ (before.foldl Assembly.committed (s.startAssembly nameHash)).base := by
  have hhead : (Section.order s.target.revision).head? = some .header := by
    cases s.target.revision <;> rfl
  cases before with
  | nil =>
      rw [horder] at hhead
      simp only [List.nil_append, List.head?_cons, Option.some.injEq] at hhead
      exact absurd hhead hk
  | cons first rest =>
      rw [horder] at hhead
      simp only [List.cons_append, List.head?_cons, Option.some.injEq] at hhead
      subst hhead
      rw [List.foldl_cons, Assembly.base_foldl_committed, Assembly.base_committed]
      have hlength : ((s.startAssembly nameHash).sectionBytes .header).length =
          s.target.headerSize := List.length_replicate
      omega

/-- The bytes of each section are found in the finished image. -/
theorem slice_assembled (horder : Section.order s.target.revision = before ++ k :: after)
    (hk : k ≠ .header) :
    slice (s.assembled nameHash).finalImage
        (before.foldl Assembly.committed (s.startAssembly nameHash)).base
        ((before.foldl Assembly.committed (s.startAssembly nameHash)).sectionBytes k).length =
      (before.foldl Assembly.committed (s.startAssembly nameHash)).sectionBytes k := by
  have hslice := Assembly.slice_section before after k (s.ready_startAssembly nameHash)
    (headerSize_le_base_foldl nameHash horder hk)
  rwa [← horder, ← assembled] at hslice

/-- Each section is found in the finished image with the zeros up to its end. -/
theorem slice_padded_assembled (horder : Section.order s.target.revision = before ++ k :: after)
    (hk : k ≠ .header) :
    slice (s.assembled nameHash).finalImage
        (before.foldl Assembly.committed (s.startAssembly nameHash)).base
        (((before.foldl Assembly.committed (s.startAssembly nameHash)).sectionBytes k).length +
          (before.foldl Assembly.committed (s.startAssembly nameHash)).sectionGap k) =
      (before.foldl Assembly.committed (s.startAssembly nameHash)).sectionBytes k ++
        List.replicate ((before.foldl Assembly.committed (s.startAssembly nameHash)).sectionGap k)
          0 := by
  have hslice := Assembly.slice_padded before after k (s.ready_startAssembly nameHash)
    (headerSize_le_base_foldl nameHash horder hk)
  rwa [← horder, ← assembled] at hslice

/-- No section ends behind the end of the image. -/
theorem base_le_size (horder : Section.order s.target.revision = before ++ k :: after) :
    (before.foldl Assembly.committed (s.startAssembly nameHash)).base +
        ((before.foldl Assembly.committed (s.startAssembly nameHash)).sectionBytes k).length ≤
      (s.assembled nameHash).finalImage.size := by
  rw [Assembly.size_finalImage (s.ready_assembled nameHash), assembled, horder, List.foldl_append,
    List.foldl_cons]
  generalize before.foldl Assembly.committed (s.startAssembly nameHash) = a
  rw [Assembly.base_foldl_committed, Assembly.base_committed]
  omega

end Finished

theorem contents_assembled (s : Script) (nameHash : UInt64) :
    (s.assembled nameHash).contents =
      { target := s.target, scriptName := s.settings.scriptName, includes := s.includes.toList
        tables := (s.assembled nameHash).tables, header := (s.assembled nameHash).header } := by
  obtain ⟨htarget, hscriptName, hincludes, -⟩ :=
    Assembly.sameScript_foldl_committed (Section.order s.target.revision) (s.startAssembly nameHash)
  rw [Assembly.contents, assembled, htarget, hscriptName, hincludes]
  rfl

theorem compile_eq (s : Script) :
    s.compile = s.names.hash64 s.target.revision s.settings.scriptName >>= fun hashed =>
      (Section.order s.target.revision).foldlM Assembly.commit (s.startAssembly hashed.1) >>= fun a =>
        .ok {
          target := a.target, scriptName := a.scriptName, includes := a.includes
          image := a.finalImage, header := a.header, layouts := a.layouts
          records := a.records.toList, tables := a.tables, names := hashed.2 } := by
  unfold compile hash64
  cases s.names.hash64 s.target.revision s.settings.scriptName <;> rfl

theorem compile_of_fits {s : Script} {nameHash : UInt64} {names : Name.Registry}
    (hname : s.names.hash64 s.target.revision s.settings.scriptName = .ok (nameHash, names))
    (hfits : (s.startAssembly nameHash).FitsAll (Section.order s.target.revision)) :
    s.compile = .ok (s.compiled nameHash names) := by
  have hrun := Assembly.foldlM_commit_of_fits _ (s.ready_startAssembly nameHash) hfits
  obtain ⟨htarget, hscriptName, hincludes, -⟩ :=
    Assembly.sameScript_foldl_committed (Section.order s.target.revision) (s.startAssembly nameHash)
  rw [compile_eq, hname]
  simp only [bind, Except.bind, hrun, htarget, hscriptName, hincludes]
  rfl

/-- A script that is refused has a name without a hash or a section that does not fit. -/
theorem compile_of_not_fits {s : Script} {nameHash : UInt64} {names : Name.Registry}
    (hname : s.names.hash64 s.target.revision s.settings.scriptName = .ok (nameHash, names))
    (hnot : ¬ (s.startAssembly nameHash).FitsAll (Section.order s.target.revision)) :
    ∃ e, s.compile = .error e ∧
      ∃ before k after, Section.order s.target.revision = before ++ k :: after ∧
        (before.foldl Assembly.committed (s.startAssembly nameHash)).Rejects k e := by
  obtain ⟨e, he, hwhy⟩ := Assembly.foldlM_commit_of_not_fits _ (s.ready_startAssembly nameHash) hnot
  refine ⟨e, ?_, hwhy⟩
  rw [compile_eq, hname]
  simp only [bind, Except.bind, he]

theorem compile_eq_ok {s : Script} {c : CompiledScript} (h : s.compile = .ok c) :
    ∃ nameHash names,
      s.names.hash64 s.target.revision s.settings.scriptName = .ok (nameHash, names) ∧
      (s.startAssembly nameHash).FitsAll (Section.order s.target.revision) ∧
      c = s.compiled nameHash names := by
  cases hname : s.names.hash64 s.target.revision s.settings.scriptName with
  | error e =>
      rw [compile_eq, hname] at h
      cases h
  | ok hashed =>
      obtain ⟨nameHash, names⟩ := hashed
      by_cases hfits : (s.startAssembly nameHash).FitsAll (Section.order s.target.revision)
      · rw [compile_of_fits hname hfits] at h
        exact ⟨nameHash, names, rfl, hfits, (Except.ok.inj h).symm⟩
      · obtain ⟨e, he, -⟩ := compile_of_not_fits hname hfits
        rw [he] at h
        cases h

/-! ## A script for instances -/

/-- A script that includes another and has one function, which jumps over a string. -/
def jumpOverString : Script :=
  let f := ScriptFunction.create .legacyLittle "main" 1 2 0 0
  let (jump, f) := f.addJump .jump
  let (string, f) := f.add (.string .getString 0)
  let (_, f) := (f.setTarget jump string).addOp .endFunction
  { settings := {}, namespaceHash := 2, functions := (Chain.empty.push f).2
    includes := #["scripts/shared.gsc"], tables := { strings := (Table.empty.add "text").2 } }

theorem exists_compiled {s : Script}
    (h : s.compile.toOption.any (fun c => c.image.size < 2 ^ 32) = true) :
    ∃ c, s.compile = .ok c ∧ c.image.size < 2 ^ 32 := by
  cases hcompile : s.compile with
  | error e => simp [hcompile, Except.toOption] at h
  | ok c => exact ⟨c, rfl, by simpa [hcompile, Except.toOption] using h⟩

theorem exists_compiled_jumpOverString :
    ∃ c, jumpOverString.compile = .ok c ∧ c.image.size < 2 ^ 32 :=
  exists_compiled (by decide +kernel)

end Script

end GscAssembler
