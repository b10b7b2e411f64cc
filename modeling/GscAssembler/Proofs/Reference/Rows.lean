import GscAssembler.Reference.Tables
import Mathlib

/-!
# Rows and recorded references

The rows of an entry are its references cut into runs: joined they give the references back, none is
empty, none holds more than 250, and only the last may hold fewer (`Entry.flatten_rows`,
`Entry.mem_rows`, `Entry.length_of_mem_dropLast_rows`).

Recording references changes no value of a table, so everything that is read off the values alone is
the same before and after (`Tables.SameValues`).  `Tables.referencesAt?` lists what was recorded for an
entry, and a whole run of recordings appends to it the addresses that name the entry, in their order
(`referencesAt?_foldl_record`).
-/

namespace GscAssembler.Bytes

variable {α : Type} {size : Nat}

theorem takeChunks_congr (hsize : 0 < size) (count : Nat) :
    ∀ (other : Nat) (xs : List α), xs.length ≤ count → xs.length ≤ other →
      takeChunks size count xs = takeChunks size other xs := by
  induction count with
  | zero =>
      intro other xs hcount _
      obtain rfl : xs = [] := List.eq_nil_of_length_eq_zero (by omega)
      cases other <;> rfl
  | succ count ih =>
      intro other xs hcount hother
      cases xs with
      | nil => cases other <;> rfl
      | cons x rest =>
          obtain ⟨other, rfl⟩ : ∃ n, other = n + 1 := ⟨other - 1, by simp at hother; omega⟩
          rw [takeChunks, takeChunks, ih other] <;> simp at hcount hother ⊢ <;> omega

theorem chunks_nil : chunks size ([] : List α) = [] := rfl

theorem chunks_cons (hsize : 0 < size) (x : α) (rest : List α) :
    chunks size (x :: rest) = (x :: rest).take size :: chunks size ((x :: rest).drop size) := by
  rw [chunks, List.length_cons, takeChunks, chunks,
    takeChunks_congr hsize rest.length ((x :: rest).drop size).length]
  · simp
    omega
  · exact Nat.le_refl _

/-- Lists are taken apart run by run. -/
theorem chunks_induction {motive : List α → Prop} (hsize : 0 < size) (nil : motive [])
    (cons : ∀ x rest, motive ((x :: rest).drop size) → motive (x :: rest)) (xs : List α) :
    motive xs := by
  induction hn : xs.length using Nat.strongRecOn generalizing xs with
  | ind n ih =>
      cases xs with
      | nil => exact nil
      | cons x rest =>
          refine cons x rest (ih _ ?_ _ rfl)
          simp only [List.length_drop, List.length_cons] at hn ⊢
          omega

theorem flatten_chunks (hsize : 0 < size) (xs : List α) : (chunks size xs).flatten = xs := by
  induction xs using chunks_induction hsize with
  | nil => rfl
  | cons x rest ih => rw [chunks_cons hsize, List.flatten_cons, ih, List.take_append_drop]

theorem length_chunks (hsize : 0 < size) (xs : List α) :
    (chunks size xs).length = (xs.length + (size - 1)) / size := by
  induction xs using chunks_induction hsize with
  | nil => simp [chunks_nil, Nat.div_eq_of_lt (Nat.sub_one_lt_of_lt hsize)]
  | cons x rest ih =>
      rw [chunks_cons hsize, List.length_cons, ih, List.length_drop]
      by_cases hle : (x :: rest).length ≤ size
      · have hlast : (x :: rest).length - size = 0 := by omega
        rw [hlast, Nat.div_eq_of_lt (by omega)]
        symm
        rw [Nat.div_eq_iff hsize]
        simp only [List.length_cons] at hle ⊢
        omega
      · have hsum : (x :: rest).length + (size - 1) =
            (x :: rest).length - size + (size - 1) + size := by omega
        rw [hsum, Nat.add_div_right _ hsize]

theorem length_of_mem_chunks (hsize : 0 < size) {xs row : List α} (h : row ∈ chunks size xs) :
    0 < row.length ∧ row.length ≤ size := by
  induction xs using chunks_induction hsize with
  | nil => simp [chunks_nil] at h
  | cons x rest ih =>
      rw [chunks_cons hsize] at h
      rcases List.mem_cons.mp h with rfl | h
      · simp only [List.length_take, List.length_cons]
        omega
      · exact ih h

/-- Only the last run may be shorter than the others. -/
theorem length_of_mem_dropLast_chunks (hsize : 0 < size) {xs row : List α}
    (h : row ∈ (chunks size xs).dropLast) : row.length = size := by
  induction xs using chunks_induction hsize with
  | nil => simp [chunks_nil] at h
  | cons x rest ih =>
      rw [chunks_cons hsize] at h
      cases hrest : (x :: rest).drop size with
      | nil => rw [hrest, chunks_nil] at h; simp at h
      | cons y more =>
          have hlonger : size < (x :: rest).length := by
            have := congrArg List.length hrest
            simp only [List.length_drop, List.length_cons] at this ⊢
            omega
          have hne : chunks size ((x :: rest).drop size) ≠ [] := by
            rw [hrest, chunks_cons hsize]
            exact List.cons_ne_nil _ _
          rw [List.dropLast_cons_of_ne_nil hne] at h
          rcases List.mem_cons.mp h with rfl | h
          · rw [List.length_take, Nat.min_eq_left (Nat.le_of_lt hlonger)]
          · exact ih h

end GscAssembler.Bytes

namespace GscAssembler.Reference

/-! ## The rows of an entry -/

namespace Entry

variable {α : Type}

theorem flatten_rows (e : Entry α) : e.rows.flatten = e.references.toList :=
  Bytes.flatten_chunks (by decide) _

theorem length_rows (e : Entry α) : e.rows.length = e.rowCount := by
  rw [rows, Bytes.length_chunks (by decide), rowCount, Array.length_toList]

theorem mem_rows {e : Entry α} {row : List Nat} (h : row ∈ e.rows) :
    0 < row.length ∧ row.length ≤ maxRowReferences :=
  Bytes.length_of_mem_chunks (by decide) h

theorem length_of_mem_dropLast_rows {e : Entry α} {row : List Nat} (h : row ∈ e.rows.dropLast) :
    row.length = maxRowReferences :=
  Bytes.length_of_mem_dropLast_chunks (by decide) h

end Entry

/-! ## Tables by their values -/

namespace Table

variable {α : Type} [Ord α]

/-- The values of a table in order. -/
def values (t : Table α) : List α :=
  t.entries.toList.map (·.value)

/-- The references recorded for the entry at a position. -/
def referencesAt? (t : Table α) (position : Nat) : Option (List Nat) :=
  (t.get? position).map (·.references.toList)

theorem length_values (t : Table α) : t.values.length = t.size := by
  simp [values, size]

theorem getElem?_values (t : Table α) (position : Nat) :
    t.values[position]? = (t.get? position).map (·.value) := by
  simp [values, get?]

theorem rowCount_eq_sum (t : Table α) :
    t.rowCount = (t.entries.toList.map (·.rowCount)).sum := by
  rw [rowCount, ← Array.foldl_toList, ← List.foldl_map (f := Entry.rowCount) (g := (· + ·)),
    List.sum_eq_foldl]

theorem referenceCount_eq_sum (t : Table α) :
    t.referenceCount = (t.entries.toList.map (·.references.size)).sum := by
  rw [referenceCount, ← Array.foldl_toList,
    ← List.foldl_map (f := fun e : Entry α => e.references.size) (g := (· + ·)), List.sum_eq_foldl]

@[simp] theorem values_addReference (t : Table α) (position address : Nat) :
    (t.addReference position address).values = t.values := by
  apply List.ext_getElem?
  intro i
  simp only [getElem?_values, addReference, get?, Array.getElem?_modify]
  split <;> cases t.entries[i]? <;> rfl

@[simp] theorem values_clearReferences (t : Table α) : t.clearReferences.values = t.values := by
  simp [values, clearReferences, Entry.cleared, Function.comp_def]

/-- The values of a table with the addresses at which they are stored. -/
def places (t : Table α) : List (α × Option Nat) :=
  t.entries.toList.map fun e => (e.value, e.address)

@[simp] theorem places_addReference (t : Table α) (position address : Nat) :
    (t.addReference position address).places = t.places := by
  apply List.ext_getElem?
  intro i
  simp only [places, addReference, List.getElem?_map, Array.getElem?_toList, Array.getElem?_modify]
  split <;> cases t.entries[i]? <;> rfl

theorem exists_referencesAt?_of_mem {t : Table α} {e : Entry α} (h : e ∈ t.entries.toList) :
    ∃ i, t.referencesAt? i = some e.references.toList := by
  obtain ⟨i, hi⟩ := List.mem_iff_getElem?.mp h
  exact ⟨i, by simpa [referencesAt?, get?] using ⟨e, by simpa using hi, rfl⟩⟩

theorem referencesAt?_addReference (t : Table α) (position address i : Nat) :
    (t.addReference position address).referencesAt? i =
      (t.referencesAt? i).map fun l => if position = i then l ++ [address] else l := by
  simp only [referencesAt?, addReference, get?, Array.getElem?_modify]
  split <;> cases t.entries[i]? <;> simp

theorem referencesAt?_clearReferences (t : Table α) (i : Nat) :
    t.clearReferences.referencesAt? i = (t.values[i]?).map fun _ => [] := by
  simp only [referencesAt?, clearReferences, get?, Array.getElem?_map, getElem?_values]
  cases t.entries[i]? <;> rfl

end Table

namespace Tables

/-- The references recorded for an entry of a table. -/
def referencesAt? (t : Tables) (kind : TableKind) (position : Nat) : Option (List Nat) :=
  match kind with
  | .strings => t.strings.referencesAt? position
  | .imports => t.imports.referencesAt? position
  | .globals => t.globals.referencesAt? position
  | .debug => t.debug.referencesAt? position

/-- The number of entries of a table. -/
def sizeOf (t : Tables) : TableKind → Nat
  | .strings => t.strings.size
  | .imports => t.imports.size
  | .globals => t.globals.size
  | .debug => t.debug.size

/-- Whether two families of tables differ in references and addresses only. -/
structure SameValues (t u : Tables) : Prop where
  strings : t.strings.values = u.strings.values
  imports : t.imports.values = u.imports.values
  globals : t.globals.values = u.globals.values
  debug : t.debug.values = u.debug.values

theorem SameValues.refl (t : Tables) : t.SameValues t :=
  ⟨rfl, rfl, rfl, rfl⟩

theorem SameValues.trans {t u v : Tables} (h : t.SameValues u) (k : u.SameValues v) :
    t.SameValues v :=
  ⟨h.strings.trans k.strings, h.imports.trans k.imports, h.globals.trans k.globals,
    h.debug.trans k.debug⟩

theorem SameValues.symm {t u : Tables} (h : t.SameValues u) : u.SameValues t :=
  ⟨h.strings.symm, h.imports.symm, h.globals.symm, h.debug.symm⟩

theorem SameValues.sizeOf_eq {t u : Tables} (h : t.SameValues u) (kind : TableKind) :
    t.sizeOf kind = u.sizeOf kind := by
  cases kind <;>
    simp only [sizeOf, ← Table.length_values, h.strings, h.imports, h.globals, h.debug]

theorem sameValues_record (t : Tables) (r : TableReference) : (t.record r).SameValues t := by
  unfold record
  cases r.table <;> constructor <;> simp

theorem sameValues_foldl_record (refs : List TableReference) :
    ∀ t : Tables, (refs.foldl record t).SameValues t := by
  induction refs with
  | nil => intro t; exact .refl t
  | cons r rest ih => intro t; exact (ih _).trans (t.sameValues_record r)

theorem places_foldl_record (refs : List TableReference) :
    ∀ t : Tables, (refs.foldl record t).strings.places = t.strings.places := by
  induction refs with
  | nil => intro t; rfl
  | cons r rest ih =>
      intro t
      rw [List.foldl_cons, ih, record]
      cases r.table <;> simp

theorem sameValues_clearReferences (t : Tables) : t.clearReferences.SameValues t := by
  constructor <;> simp [clearReferences]

theorem referencesAt?_record (t : Tables) (r : TableReference) (kind : TableKind) (i : Nat) :
    (t.record r).referencesAt? kind i = (t.referencesAt? kind i).map fun l =>
      if r.table = kind ∧ r.entry = i then l ++ [r.address] else l := by
  unfold record referencesAt?
  cases r.table <;> cases kind <;> simp [Table.referencesAt?_addReference]

/-- Recording appends to an entry's references the addresses that name it. -/
theorem referencesAt?_foldl_record (refs : List TableReference) (kind : TableKind) (i : Nat) :
    ∀ t : Tables, (refs.foldl record t).referencesAt? kind i =
      (t.referencesAt? kind i).map fun l =>
        l ++ (refs.filter fun r => r.table = kind ∧ r.entry = i).map (·.address) := by
  induction refs with
  | nil => intro t; simp
  | cons r rest ih =>
      intro t
      rw [List.foldl_cons, ih, referencesAt?_record, Option.map_map]
      congr 1
      funext l
      by_cases h : r.table = kind ∧ r.entry = i <;> simp [h]

theorem isSome_referencesAt? (t : Tables) (kind : TableKind) (i : Nat) :
    (t.referencesAt? kind i).isSome ↔ i < t.sizeOf kind := by
  cases kind <;> simp [referencesAt?, sizeOf, Table.referencesAt?, Table.get?, Table.size]

theorem referencesAt?_clearReferences (t : Tables) (kind : TableKind) (i : Nat) :
    t.clearReferences.referencesAt? kind i = if i < t.sizeOf kind then some [] else none := by
  cases kind <;>
    simp only [referencesAt?, clearReferences, Table.referencesAt?_clearReferences, sizeOf,
      ← Table.length_values] <;>
    split <;> simp_all

end Tables

end GscAssembler.Reference
