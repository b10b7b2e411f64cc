import GscAssembler.Proofs.Image.Compile

/-!
# Sections tile the image

The sections of a finished image follow each other without gap or overlap, in the order of the
revision, and each ends on a multiple of 16.  What a section writes never exceeds the size it was
expected to have, and that size is the same when it is computed again from the finished tables and
header: whatever is committed behind a section leaves alone what its size was read off
(`rawSize_foldl_committed`).  The one exception are sizes that count references, and sections of such
sizes all come behind the functions.
-/

namespace GscAssembler.Image

open Bytes (Buffer)
open Reference (Tables)

/-- Whether the size of a section counts references. -/
def Section.countsReferences (revision : Revision) : Section → Bool
  | .strings => revision = .rev36
  | .imports | .stringFixups | .debugStrings | .globals => true
  | .header | .name | .exports | .includes => false

theorem Section.nodup_order (revision : Revision) : (Section.order revision).Nodup := by
  cases revision <;> decide

/-- No section in front of the functions has a size that counts references. -/
theorem Section.pairwise_order (revision : Revision) : (Section.order revision).Pairwise
    fun s t => t = .exports → s.countsReferences revision = false := by
  cases revision <;> decide

namespace Assembly

/-- No section but that of the functions changes a table, except for the addresses of strings. -/
theorem tables_filled (a : Assembly) {t : Section} (h : t ≠ .exports) :
    (a.filled t).tables = a.tables ∨
      ∃ address, (a.filled t).tables = { a.tables with strings := a.stringsAt address } := by
  cases t with
  | exports => exact absurd rfl h
  | strings =>
      cases hrevision : a.target.revision <;> simp only [filled, hrevision] <;>
        exact .inr ⟨_, rfl⟩
  | _ => exact .inl rfl

theorem sameValues_filled (a : Assembly) (t : Section) :
    (a.filled t).tables.SameValues a.tables := by
  by_cases h : t = .exports
  · subst h
    exact Tables.sameValues_foldl_record _ _
  · rcases a.tables_filled h with htables | ⟨address, htables⟩ <;> rw [htables]
    · exact .refl _
    · exact ⟨a.values_stringsAt address, rfl, rfl, rfl⟩

/-- A section behind another does not change what the size of that was read off. -/
theorem rawSize_committed (a : Assembly) {s t : Section} (hne : s ≠ t)
    (h : t = .exports → s.countsReferences a.target.revision = false) :
    (a.committed t).contents.rawSize s = a.contents.rawSize s := by
  have hcontents : (a.committed t).contents = (a.filled t).contents := rfl
  have hvalues := a.sameValues_filled t
  rw [hcontents]
  by_cases hexports : t = .exports
  · have hknown := h hexports
    cases s with
    | exports => exact absurd hexports.symm hne
    | strings =>
        cases hrevision : a.target.revision with
        | legacy =>
            simp only [contents, Contents.rawSize, target_filled, hrevision, stringsSize_eq,
              hvalues.strings]
        | rev36 => simp [Section.countsReferences, hrevision] at hknown
    | header | name | includes => simp [contents, Contents.rawSize]
    | imports | stringFixups | debugStrings | globals =>
        simp [Section.countsReferences] at hknown
  · have htables := a.tables_filled hexports
    cases s with
    | exports => cases t <;> first | rfl | (simp only [filled]; split <;> rfl) | contradiction
    | header | name | includes => simp [contents, Contents.rawSize]
    | imports | debugStrings | globals =>
        rcases htables with htables | ⟨address, htables⟩ <;>
          simp [contents, Contents.rawSize, htables]
    | stringFixups | strings =>
        rcases htables with htables | ⟨address, htables⟩ <;>
          simp [contents, Contents.rawSize, htables, Contents.stringRowsSize, rowsSize_stringsAt,
            stringsSize_eq, values_stringsAt]

theorem rawSize_foldl_committed {s : Section} {revision : Revision} (sections : List Section)
    (h : ∀ t ∈ sections, s ≠ t ∧ (t = .exports → s.countsReferences revision = false)) :
    ∀ a : Assembly, a.target.revision = revision →
      (sections.foldl committed a).contents.rawSize s = a.contents.rawSize s := by
  induction sections with
  | nil => intro a _; rfl
  | cons t rest ih =>
      intro a hrevision
      obtain ⟨hne, hexports⟩ := h t (List.mem_cons_self ..)
      rw [List.foldl_cons, ih (fun u hu => h u (List.mem_cons_of_mem _ hu)) _ (by simpa),
        a.rawSize_committed hne (by rw [hrevision]; exact hexports)]

/-- The size that a section was given is the one computed from the finished assembly. -/
theorem size_foldl_committed (a : Assembly) {before after : List Section} {s : Section}
    (horder : Section.order a.target.revision = before ++ s :: after) :
    ((before ++ s :: after).foldl committed a).contents.size s (before.foldl committed a).base =
      ((before.foldl committed a).recordOf s).size := by
  have htarget := (sameScript_foldl_committed before a).target
  have hnodup := horder ▸ Section.nodup_order a.target.revision
  have hpairwise := horder ▸ Section.pairwise_order a.target.revision
  have hlater : ∀ t ∈ after, s ≠ t ∧
      (t = .exports → s.countsReferences a.target.revision = false) := by
    intro t ht
    have hdistinct := (List.pairwise_append.mp hnodup).2.1
    have hbehind := (List.pairwise_append.mp hpairwise).2.1
    exact ⟨List.rel_of_pairwise_cons hdistinct ht, List.rel_of_pairwise_cons hbehind ht⟩
  rw [List.foldl_append, List.foldl_cons]
  generalize before.foldl committed a = b at htarget ⊢
  have hraw : (after.foldl committed (b.committed s)).contents.rawSize s =
      (b.sectionBytes s).length := by
    rw [rawSize_foldl_committed after hlater _ (by simp [htarget])]
    exact b.length_sectionBytes s
  rw [Contents.size, hraw]
  rfl

end Assembly

end GscAssembler.Image

namespace GscAssembler

open Image (Assembly Section SectionRecord)

namespace Script

variable {s : Script} {nameHash : UInt64}

/-- The records of a finished image are those of its sections in their turn. -/
theorem records_assembled (s : Script) (nameHash : UInt64) :
    (s.assembled nameHash).records.toList =
      (s.startAssembly nameHash).recordsFrom (Section.order s.target.revision) := by
  rw [assembled, Assembly.records_foldl_committed]
  rfl

theorem section?_of_mem {names : Name.Registry} {r : SectionRecord}
    (hr : r ∈ (s.compiled nameHash names).records) :
    (s.compiled nameHash names).section? r.kind = some r := by
  have hkinds : ((s.compiled nameHash names).records.map (·.kind)).Nodup := by
    rw [compiled, records_assembled, Assembly.map_kind_recordsFrom]
    exact Section.nodup_order _
  have hunique : ∀ q ∈ (s.compiled nameHash names).records, q.kind = r.kind → q = r :=
    fun q hq hkind => List.inj_on_of_nodup_map hkinds hq hr hkind
  unfold CompiledScript.section?
  obtain ⟨found, hfound⟩ : ∃ found, (s.compiled nameHash names).records.find?
      (fun q => decide (q.kind = r.kind)) = some found :=
    Option.isSome_iff_exists.mp (List.find?_isSome.mpr ⟨r, hr, by simp⟩)
  rw [hfound, hunique found (List.mem_of_find?_eq_some hfound)
    (by simpa using List.find?_some hfound)]

/-- A record of a finished image is that of its section in its turn. -/
theorem record_eq_recordOf {before after : List SectionRecord} {r : SectionRecord}
    (hsplit : (s.assembled nameHash).records.toList = before ++ r :: after) :
    Section.order s.target.revision = before.map (·.kind) ++ r.kind :: after.map (·.kind) ∧
      r = ((before.map (·.kind)).foldl Assembly.committed (s.startAssembly nameHash)).recordOf
        r.kind ∧
      r.base = (before.map (·.size)).sum := by
  rw [records_assembled] at hsplit
  obtain ⟨horder, hbefore, hr⟩ := Assembly.recordsFrom_eq_append hsplit
  refine ⟨horder, hr, ?_⟩
  have hbase := Assembly.base_foldl_committed (before.map (·.kind)) (s.startAssembly nameHash)
  rw [← hbefore] at hbase
  rw [hr]
  exact hbase.trans (Nat.zero_add _)

end Script

/-- Sections tile the image, and their expected sizes are exact.  A script that compiles has the
sections of its revision in order, each starting where the one before ends, on multiples of 16, up to
the end of the image.  In the run that assembles it, what a section writes stays within the size that
was computed before, so that filling the section up appends zeros only; and the size computed from the
finished image is the one recorded. -/
theorem sections_tile_image {s : Script} {c : CompiledScript} (h : s.compile = .ok c) :
    c.records.map (·.kind) = Section.order s.target.revision ∧
    (∀ before r after, c.records = before ++ r :: after → r.base = (before.map (·.size)).sum) ∧
    (∀ r ∈ c.records, 16 ∣ r.base + r.size) ∧
    (c.records.map (·.size)).sum = c.image.size ∧
    (∃ nameHash, s.names.hash64 s.target.revision s.settings.scriptName = .ok (nameHash, c.names) ∧
      ∀ before k after, Section.order s.target.revision = before ++ k :: after →
        ∃ a prepared written,
          before.foldlM Assembly.commit (s.startAssembly nameHash) = .ok a ∧
          (if k = .exports then a.layOutFunctions else .ok a) = .ok prepared ∧
          prepared.write k = .ok written ∧
          written.image.position ≤ a.base + prepared.contents.size k a.base ∧
          a.commit k = .ok { written with
            image := written.image.append (List.replicate
              (a.base + prepared.contents.size k a.base - written.image.position) 0)
            records := a.records.push ⟨k, a.base, prepared.contents.size k a.base⟩ }) ∧
    ∀ r ∈ c.records, c.sectionSize? r.kind = some r.size := by
  obtain ⟨nameHash, names, hname, hfits, rfl⟩ := Script.compile_eq_ok h
  have hready := s.ready_startAssembly nameHash
  refine ⟨?_, ?_, ?_, ?_, ⟨nameHash, hname, ?_⟩, ?_⟩
  · rw [Script.compiled, Script.records_assembled, Assembly.map_kind_recordsFrom]
  · intro before r after hsplit
    exact (Script.record_eq_recordOf hsplit).2.2
  · intro r hr
    obtain ⟨before, after, hsplit⟩ := List.append_of_mem hr
    rw [(Script.record_eq_recordOf hsplit).2.1]
    exact Bytes.sectionPadding_dvd _ _
  · have hbase := Assembly.base_foldl_committed (Section.order s.target.revision)
      (s.startAssembly nameHash)
    rw [Script.compiled, Assembly.size_finalImage (s.ready_assembled nameHash),
      Script.records_assembled, Script.assembled, hbase]
    exact (Nat.zero_add _).symm
  · intro before k after horder
    have hbefore : (s.startAssembly nameHash).FitsAll before ∧
        (before.foldl Assembly.committed (s.startAssembly nameHash)).Fits k := by
      rw [horder, Assembly.fitsAll_append] at hfits
      exact ⟨hfits.1, hfits.2.1⟩
    have hrun := Assembly.foldlM_commit_of_fits before hready hbefore.1
    have hat := Assembly.ready_foldl_committed before hready
    generalize before.foldl Assembly.committed (s.startAssembly nameHash) = a at hrun hat hbefore
    refine ⟨a, a.prepared k, a.written k, hrun, Assembly.prepare_of_fits hat hbefore.2,
      Assembly.write_of_fits hat hbefore.2, ?_, ?_⟩
    · rw [Assembly.size_prepared, Assembly.position_written hat]
      omega
    · have hgap : a.base + ((a.sectionBytes k).length + a.sectionGap k) -
          (a.base + (a.sectionBytes k).length) = a.sectionGap k := by omega
      rw [Assembly.commit_of_fits hat hbefore.2, Assembly.size_prepared,
        Assembly.position_written hat, hgap]
      simp [Assembly.committed, Assembly.written]
  · intro r hr
    obtain ⟨before, after, hsplit⟩ := List.append_of_mem hr
    obtain ⟨horder, hrecord, -⟩ := Script.record_eq_recordOf hsplit
    have hbase := congrArg SectionRecord.base hrecord
    have hsize := (s.startAssembly nameHash).size_foldl_committed horder
    rw [← hrecord, ← horder, ← Script.assembled, Script.contents_assembled] at hsize
    rw [CompiledScript.sectionSize?, Script.section?_of_mem hr, Option.map_some, ← hsize, hbase]
    rfl

theorem sections_tile_image_jumpOverString : ∃ c, Script.jumpOverString.compile = .ok c ∧
    c.records.map (·.kind) = Section.order .legacy ∧
    (c.records.map (·.size)).sum = c.image.size := by
  obtain ⟨c, hcompile, -⟩ := Script.exists_compiled_jumpOverString
  obtain ⟨hkinds, -, -, hsizes, -, -⟩ := sections_tile_image hcompile
  exact ⟨c, hcompile, hkinds, hsizes⟩

end GscAssembler
