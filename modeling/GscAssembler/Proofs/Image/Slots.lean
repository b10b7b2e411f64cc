import GscAssembler.Proofs.Image.Loader

/-!
# The slots of the header

Every section leaves its offset and its count in a slot of the header that no other section touches,
so the finished header leads to each section (`slot_assembled`).  Offsets are addresses in the image,
and counts were checked when the section was written (`slot_assembled_le`).  What is written behind
the functions changes no table but for the addresses of the strings.
-/

namespace GscAssembler.Image

open Bytes (ByteOrder slice)
open Code (FunctionLayout ScriptFunction)
open Reference (Entry ImportKey Table Tables TableKind)

/-! ## The slots of the header -/

/-- A place in the header for the offset and the count of a section. -/
inductive HeaderSlot where
  /-- The name of the script, which has no count. -/
  | name
  /-- The string rows. -/
  | strings
  /-- The export entries. -/
  | exports
  /-- The import rows. -/
  | imports
  /-- The included scripts. -/
  | includes
  /-- The developer string rows. -/
  | debugStrings
  /-- The rows of the global objects. -/
  | globals
  deriving DecidableEq

/-- The largest count that a slot has room for. -/
def HeaderSlot.limit (revision : Revision) (slot : HeaderSlot) : Nat :=
  if slot = .includes ∧ revision = .legacy then legacyIncludeLimit else countLimit

/-- The offset and the count in a slot. -/
def Header.slot (h : Header) : HeaderSlot → Nat × Nat
  | .name => (h.nameOffset, 0)
  | .strings => (h.stringOffset, h.stringCount)
  | .exports => (h.exportOffset, h.exportCount)
  | .imports => (h.importOffset, h.importCount)
  | .includes => (h.includeOffset, h.includeCount)
  | .debugStrings => (h.debugStringOffset, h.debugStringCount)
  | .globals => (h.globalOffset, h.globalCount)

/-- The slot that a section fills. -/
def Section.slot (revision : Revision) : Section → Option HeaderSlot
  | .header => none
  | .name => some .name
  | .strings => if revision = .rev36 then some .strings else none
  | .exports => some .exports
  | .imports => some .imports
  | .includes => some .includes
  | .stringFixups => some .strings
  | .debugStrings => some .debugStrings
  | .globals => some .globals

theorem Section.pairwise_slot (revision : Revision) : (Section.order revision).Pairwise
    fun s t => ∀ slot, s.slot revision = some slot → t.slot revision ≠ some slot := by
  cases revision <;> decide

namespace Assembly

/-- The count that a section leaves in its slot. -/
def slotCount (a : Assembly) : Section → Nat
  | .header | .name => 0
  | .strings | .stringFixups => a.tables.strings.rowCount
  | .exports => a.functions.length
  | .imports => a.tables.imports.rowCount
  | .includes => a.includes.length
  | .debugStrings => a.tables.debug.rowCount
  | .globals => a.tables.globals.rowCount

theorem slot_committed_self (a : Assembly) {s : Section} {slot : HeaderSlot}
    (h : s.slot a.target.revision = some slot) :
    (a.committed s).header.slot slot = (a.base, a.slotCount s) := by
  cases s with
  | header => simp [Section.slot] at h
  | strings =>
      cases hrevision : a.target.revision <;> simp [Section.slot, hrevision] at h
      subst h
      simp [committed, filled, hrevision, Header.slot, slotCount]
  | _ =>
      simp only [Section.slot, Option.some.injEq] at h
      subst h
      rfl

theorem slot_committed_of_ne (a : Assembly) {s : Section} {slot : HeaderSlot}
    (h : s.slot a.target.revision ≠ some slot) :
    (a.committed s).header.slot slot = a.header.slot slot := by
  cases s with
  | strings =>
      cases hrevision : a.target.revision <;>
        simp only [Section.slot, hrevision, committed, filled] at h ⊢
      cases slot <;> first | rfl | simp at h
  | _ => cases slot <;> first | rfl | simp [Section.slot] at h

theorem slot_foldl_committed {sections : List Section} {slot : HeaderSlot} {revision : Revision}
    (h : ∀ s ∈ sections, s.slot revision ≠ some slot) :
    ∀ a : Assembly, a.target.revision = revision →
      (sections.foldl committed a).header.slot slot = a.header.slot slot := by
  induction sections with
  | nil => intro a _; rfl
  | cons s rest ih =>
      intro a hrevision
      rw [List.foldl_cons, ih (fun t ht => h t (List.mem_cons_of_mem _ ht)) _ (by simpa),
        a.slot_committed_of_ne (by rw [hrevision]; exact h s (List.mem_cons_self ..))]

/-- The counts of sections that fit are small enough for their fields. -/
theorem slotCount_le {a : Assembly} {s : Section} {slot : HeaderSlot} (h : a.Fits s)
    (hslot : s.slot a.target.revision = some slot) :
    a.slotCount s ≤ slot.limit a.target.revision := by
  cases s with
  | header => simp [Section.slot] at hslot
  | strings =>
      cases hrevision : a.target.revision <;> simp [Section.slot, hrevision] at hslot
      subst hslot
      simpa [Fits, slotCount, HeaderSlot.limit, hrevision] using h
  | includes =>
      cases hrevision : a.target.revision <;>
        simp only [Section.slot, Option.some.injEq] at hslot <;> subst hslot <;>
        simpa [Fits, slotCount, HeaderSlot.limit, hrevision] using h
  | exports =>
      simp only [Section.slot, Option.some.injEq] at hslot
      subst hslot
      simpa [slotCount, HeaderSlot.limit] using h.1
  | name => simp [slotCount]
  | _ =>
      simp only [Section.slot, Option.some.injEq] at hslot
      subst hslot
      simpa [Fits, slotCount, HeaderSlot.limit] using h

/-- What is written behind the functions leaves the tables without addresses alone. -/
theorem tables_foldl_committed {sections : List Section} (h : .exports ∉ sections) :
    ∀ a : Assembly, (sections.foldl committed a).tables.imports = a.tables.imports ∧
      (sections.foldl committed a).tables.globals = a.tables.globals ∧
      (sections.foldl committed a).tables.debug = a.tables.debug := by
  induction sections with
  | nil => intro a; exact ⟨rfl, rfl, rfl⟩
  | cons s rest ih =>
      intro a
      have hs : s ≠ .exports := fun heq => h (heq ▸ List.mem_cons_self ..)
      obtain ⟨himports, hglobals, hdebug⟩ := ih (fun hrest => h (List.mem_cons_of_mem _ hrest))
        (a.committed s)
      have htables : (a.committed s).tables = (a.filled s).tables := rfl
      rw [List.foldl_cons, himports, hglobals, hdebug, htables]
      rcases a.tables_filled hs with hfilled | ⟨address, hfilled⟩ <;> rw [hfilled] <;>
        exact ⟨rfl, rfl, rfl⟩

theorem strings_foldl_committed {sections : List Section} (h : .exports ∉ sections)
    (hstrings : .strings ∉ sections) :
    ∀ a : Assembly, (sections.foldl committed a).tables.strings = a.tables.strings := by
  induction sections with
  | nil => intro a; rfl
  | cons s rest ih =>
      intro a
      rw [List.foldl_cons, ih (fun hrest => h (List.mem_cons_of_mem _ hrest))
        (fun hrest => hstrings (List.mem_cons_of_mem _ hrest))]
      cases s <;> first
        | rfl
        | exact absurd (List.mem_cons_self ..) h
        | exact absurd (List.mem_cons_self ..) hstrings

end Assembly

end GscAssembler.Image

namespace GscAssembler.Script

open Bytes (slice)
open Code (ScriptFunction)
open Image (Assembly Header HeaderSlot Section)
open Reference (TableKind Tables)

section Finished

variable {s : Script} (nameHash : UInt64) {before after : List Section} {k : Section}

/-- The header leads to each section. -/
theorem slot_assembled {slot : HeaderSlot}
    (horder : Section.order s.target.revision = before ++ k :: after)
    (hslot : k.slot s.target.revision = some slot) :
    (s.assembled nameHash).header.slot slot =
      ((before.foldl Assembly.committed (s.startAssembly nameHash)).base,
        (before.foldl Assembly.committed (s.startAssembly nameHash)).slotCount k) := by
  have hpairwise := horder ▸ Section.pairwise_slot s.target.revision
  have hlater : ∀ t ∈ after, t.slot s.target.revision ≠ some slot := fun t ht =>
    List.rel_of_pairwise_cons (List.pairwise_append.mp hpairwise).2.1 ht slot hslot
  have htarget := (Assembly.sameScript_foldl_committed before (s.startAssembly nameHash)).target
  rw [assembled, horder, List.foldl_append, List.foldl_cons]
  generalize before.foldl Assembly.committed (s.startAssembly nameHash) = a at htarget ⊢
  rw [Assembly.slot_foldl_committed hlater _ (by simp [htarget]; rfl),
    a.slot_committed_self (by rw [htarget]; exact hslot)]

/-- A slot holds an address in the image and a count that its field has room for. -/
theorem slot_assembled_le (hfits : (s.startAssembly nameHash).FitsAll
      (Section.order s.target.revision)) (slot : HeaderSlot) :
    ((s.assembled nameHash).header.slot slot).1 ≤ (s.assembled nameHash).finalImage.size ∧
      ((s.assembled nameHash).header.slot slot).2 ≤ slot.limit s.target.revision := by
  by_cases hfilled : ∃ k ∈ Section.order s.target.revision, k.slot s.target.revision = some slot
  · obtain ⟨k, hk, hslot⟩ := hfilled
    obtain ⟨before, after, horder⟩ := List.append_of_mem hk
    have hbase := base_le_size nameHash horder
    have hhere : (before.foldl Assembly.committed (s.startAssembly nameHash)).Fits k := by
      rw [horder, Assembly.fitsAll_append] at hfits
      exact hfits.2.1
    have htarget := (Assembly.sameScript_foldl_committed before (s.startAssembly nameHash)).target
    have hcount := Assembly.slotCount_le hhere (by rw [htarget]; exact hslot)
    rw [htarget] at hcount
    rw [slot_assembled nameHash horder hslot]
    exact ⟨by dsimp only; omega, hcount⟩
  · push Not at hfilled
    rw [assembled, Assembly.slot_foldl_committed hfilled _ rfl]
    cases slot <;> exact ⟨Nat.zero_le _, Nat.zero_le _⟩

end Finished

end GscAssembler.Script
