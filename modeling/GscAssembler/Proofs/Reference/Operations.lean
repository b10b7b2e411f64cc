import GscAssembler.Proofs.Reference.Index

/-!
# Tables through all their operations

Everything that happens to a table is one of three operations: a value is asked for, a reference is
recorded, or all references are forgotten.  Whatever sequence of them has led to a table, its values are
those that were asked for, each once and in the order of the first requests (`values_applyAll`), and a
position keeps its value from then on (`values_prefix_applyAll`).
-/

namespace GscAssembler.Reference

/-- An operation on a table. -/
inductive Operation (α : Type) where
  /-- Asks for a value. -/
  | add (value : α)
  /-- Records a reference to the entry at a position. -/
  | addReference (position address : Nat)
  /-- Forgets all references. -/
  | clearReferences

namespace Operation

variable {α : Type}

/-- The value that an operation asks for. -/
def requested? : Operation α → Option α
  | .add value => some value
  | _ => none

/-- The values that operations ask for, in their order. -/
def requested (operations : List (Operation α)) : List α :=
  operations.filterMap requested?

end Operation

open Operation (requested)

namespace Table

variable {α : Type} [Ord α]

/-- The table after an operation. -/
def apply (t : Table α) : Operation α → Table α
  | .add value => (t.add value).2
  | .addReference position address => t.addReference position address
  | .clearReferences => t.clearReferences

/-- The table after several operations. -/
def applyAll (t : Table α) (operations : List (Operation α)) : Table α :=
  operations.foldl apply t

/-! ## Single operations -/

theorem Indexed.find?_eq_none_iff {t : Table α} (h : t.Indexed) (value : α) :
    t.find? value = none ↔ value ∉ t.values := by
  rw [Option.eq_none_iff_forall_ne_some, List.mem_iff_getElem?, not_exists]
  exact forall_congr' fun i => not_congr (h value i)

/-- Asking for a value leaves the entries as they are, and appends one if the value is new. -/
theorem get?_add (t : Table α) (value : α) (i : Nat) :
    (t.add value).2.get? i =
      if t.find? value = none ∧ i = t.size then some { value } else t.get? i := by
  cases hfind : t.find? value with
  | some position => simp [add, hfind]
  | none => simp [add, hfind, get?, size, Array.getElem?_push]

theorem Indexed.get?_add_eq_some_iff {t : Table α} (h : t.Indexed) (value : α) (i : Nat)
    (e : Entry α) : (t.add value).2.get? i = some e ↔
      t.get? i = some e ∨ (value ∉ t.values ∧ i = t.size ∧ e = { value }) := by
  rw [get?_add, ← h.find?_eq_none_iff]
  split
  case isTrue hnew =>
      obtain ⟨hfind, rfl⟩ := hnew
      have hbehind : t.get? t.size = none := by simp [get?, size]
      simp [hbehind, hfind, eq_comm]
  case isFalse hold =>
      refine ⟨.inl, fun h => h.resolve_right ?_⟩
      rintro ⟨hfind, hi, -⟩
      exact hold ⟨hfind, hi⟩

theorem get?_addReference (t : Table α) (position address i : Nat) :
    (t.addReference position address).get? i = (t.get? i).map fun e =>
      if position = i then { e with references := e.references.push address } else e := by
  simp only [get?, addReference, Array.getElem?_modify]
  split <;> simp

/-- A reference to an entry that is not there is not recorded. -/
theorem addReference_of_size_le {t : Table α} {position : Nat} (h : t.size ≤ position)
    (address : Nat) : t.addReference position address = t := by
  have hentries : (t.addReference position address).entries = t.entries := by
    refine Array.ext_getElem? fun i => ?_
    have hget := t.get?_addReference position address i
    simp only [get?, size] at hget h
    rw [hget]
    by_cases hi : position = i
    · rw [Array.getElem?_eq_none (by omega)]
      rfl
    · simp [hi]
  cases t
  simp_all [addReference]

theorem get?_clearReferences (t : Table α) (i : Nat) :
    t.clearReferences.get? i = (t.get? i).map Entry.cleared := by
  simp [get?, clearReferences]

/-- The position of a value that was asked for is that of no other. -/
theorem Indexed.add_eq_iff {t : Table α} [Std.TransOrd α] [Std.LawfulEqOrd α] (h : t.Indexed)
    (value : α) (i : Nat) : (t.add value).1 = i ↔ (t.add value).2.values[i]? = some value := by
  have hadd := (h.add value value (t.add value).1).mpr (h.getElem?_add value)
  rw [← h.add value value i, hadd, Option.some.injEq]

/-! ## Sequences of operations -/

section Sequences

variable {t : Table α}

theorem values_prefix_apply (t : Table α) (operation : Operation α) :
    t.values <+: (t.apply operation).values := by
  cases operation with
  | add value => exact t.values_prefix_add value
  | addReference position address => simp [apply]
  | clearReferences => simp [apply]

/-- A position keeps its value. -/
theorem values_prefix_applyAll (operations : List (Operation α)) :
    ∀ t : Table α, t.values <+: (t.applyAll operations).values := by
  induction operations with
  | nil => exact fun t => List.prefix_refl _
  | cons operation rest ih => exact fun t => (t.values_prefix_apply operation).trans (ih _)

variable [Std.TransOrd α] [Std.LawfulEqOrd α]

theorem Indexed.apply (h : t.Indexed) (operation : Operation α) : (t.apply operation).Indexed := by
  cases operation with
  | add value => exact h.add value
  | addReference position address => exact h.addReference position address
  | clearReferences => exact h.clearReferences

theorem Indexed.applyAll (operations : List (Operation α)) :
    ∀ {t : Table α}, t.Indexed → (t.applyAll operations).Indexed := by
  induction operations with
  | nil => exact fun h => h
  | cons operation rest ih => exact fun h => ih (h.apply operation)

variable [DecidableEq α]

/-- The values are those that were asked for, each once and where it was asked for first. -/
theorem values_applyAll (operations : List (Operation α)) :
    ((empty : Table α).applyAll operations).values = (requested operations).eraseDups := by
  induction operations using List.reverseRecOn with
  | nil => rfl
  | append_singleton operations operation ih =>
      have hindexed := (indexed_empty : (empty : Table α).Indexed).applyAll operations
      have hlast : (empty : Table α).applyAll (operations ++ [operation]) =
          ((empty : Table α).applyAll operations).apply operation := by
        simp [Table.applyAll]
      have hrequested : requested (operations ++ [operation]) =
          requested operations ++ operation.requested?.toList := by
        rw [requested, List.filterMap_append]
        cases operation <;> rfl
      rw [hlast, hrequested, List.eraseDups_append, ← ih]
      -- only a request for a value that is not there yet adds something, on both sides
      generalize (empty : Table α).applyAll operations = t at ih hindexed
      cases operation with
      | add value =>
          have hmem : value ∈ t.values ↔ value ∈ requested operations := by
            rw [ih, List.mem_eraseDups]
          by_cases hold : value ∈ requested operations
          · obtain ⟨i, hi⟩ := List.mem_iff_getElem?.mp (hmem.mpr hold)
            rw [Table.apply, values_add, (hindexed value i).mpr hi]
            simp [Operation.requested?, List.removeAll, hold]
          · rw [Table.apply, values_add, (hindexed.find?_eq_none_iff value).mpr (hold ∘ hmem.mp)]
            simp [Operation.requested?, List.removeAll, hold, List.eraseDups_cons]
      | addReference position address => simp [Table.apply, Operation.requested?, List.removeAll]
      | clearReferences => simp [Table.apply, Operation.requested?, List.removeAll]

/-- There are as many entries as different values were asked for. -/
theorem size_applyAll (operations : List (Operation α)) :
    ((empty : Table α).applyAll operations).size = (requested operations).toFinset.card := by
  have hnodup := ((indexed_empty : (empty : Table α).Indexed).applyAll operations).nodup
  rw [← length_values, ← List.toFinset_card_of_nodup hnodup, values_applyAll]
  congr 1
  ext value
  simp

end Sequences

/-! ## The sizes of rows -/

/-- The rows of all entries. -/
def rows (t : Table α) : List (List Nat) :=
  t.entries.toList.flatMap Entry.rows

theorem length_rows (t : Table α) : t.rows.length = t.rowCount := by
  rw [rows, List.length_flatMap, rowCount_eq_sum]
  simp only [Entry.length_rows]

theorem length_flatten_rows (t : Table α) : t.rows.flatten.length = t.referenceCount := by
  rw [referenceCount_eq_sum, rows, List.flatMap_def, List.flatten_flatten, List.length_flatten]
  simp [Function.comp_def, Entry.flatten_rows]

/-- The bytes of the rows, counted row by row. -/
theorem rowsSize_eq_sum (t : Table α) (headerSize : Nat) :
    t.rowsSize headerSize = (t.rows.map fun row => headerSize + 4 * row.length).sum := by
  rw [rowsSize, ← length_rows, ← length_flatten_rows]
  induction t.rows with
  | nil => simp
  | cons row rest ih =>
      rw [List.map_cons, List.sum_cons, ← ih, List.flatten_cons, List.length_append, List.length_cons]
      ring

/-- The bytes of all rows, calculated in words of 32 bits. -/
def rowsSize32 (t : Table α) (headerSize : UInt32) : UInt32 :=
  UInt32.ofNat t.rowCount * headerSize + UInt32.ofNat t.referenceCount * 4

/-- Words of 32 bits do as long as the size fits in one. -/
theorem toNat_rowsSize32 {t : Table α} {headerSize : UInt32}
    (h : t.rowsSize headerSize.toNat < 2 ^ 32) :
    (t.rowsSize32 headerSize).toNat = t.rowsSize headerSize.toNat := by
  have hword : t.rowsSize32 headerSize = UInt32.ofNat (t.rowsSize headerSize.toNat) := by
    simp [rowsSize32, rowsSize]
  rw [hword, UInt32.toNat_ofNat', Nat.mod_eq_of_lt h]

end Table

theorem Entry.rowCount_eq_ceilDiv {α : Type} (e : Entry α) :
    e.rowCount = e.references.size ⌈/⌉ maxRowReferences := by
  rw [rowCount, Nat.ceilDiv_eq_add_pred_div]
  rfl

/-- A table is what its operations make of it.  Whatever values were asked for, references recorded (also
for entries that are not there) and references forgotten since it was empty: its values are those that
were asked for, without repetition and in the order of the first requests, and there are as many entries
as different values.  Finding a value and asking for it give the position where it stands and no other, and
the value stays there whatever happens later.  Asking for a value changes no entry, recording a reference
appends it to the entry it names and to no other, and forgetting the references keeps all else.  The rows
of an entry, at most 250 references each, are its references in order, and the size of the rows of a table
is the sum of theirs, also in words of 32 bits while it fits in one. -/
theorem tables_after_operations {α : Type} [Ord α] [DecidableEq α] [Std.TransOrd α]
    [Std.LawfulEqOrd α] (operations : List (Operation α)) :
    let t := (Table.empty : Table α).applyAll operations
    (t.values = (requested operations).eraseDups ∧ t.values.Nodup ∧
      t.size = (requested operations).toFinset.card) ∧
    (∀ value i, (t.find? value = some i ↔ t.values[i]? = some value) ∧
      ((t.add value).1 = i ↔ (t.add value).2.values[i]? = some value)) ∧
    (∀ later value i, t.values[i]? = some value →
      (t.applyAll later).values[i]? = some value ∧ (t.applyAll later).find? value = some i) ∧
    (∀ value i e, (t.add value).2.get? i = some e ↔
      t.get? i = some e ∨ (value ∉ t.values ∧ i = t.size ∧ e = { value })) ∧
    (∀ position address, (t.size ≤ position → t.addReference position address = t) ∧
      ∀ i, (t.addReference position address).get? i = (t.get? i).map fun e =>
        if position = i then { e with references := e.references.push address } else e) ∧
    (∀ value i, t.clearReferences.find? value = t.find? value ∧
      t.clearReferences.get? i = (t.get? i).map Entry.cleared) ∧
    (∀ e ∈ t.entries, e.rows.flatten = e.references.toList ∧ e.rows.length = e.rowCount ∧
      e.rowCount = e.references.size ⌈/⌉ 250 ∧ ∀ row ∈ e.rows, row.length ≤ 250) ∧
    (∀ headerSize, t.rowsSize headerSize =
      (t.rows.map fun row => headerSize + 4 * row.length).sum) ∧
    (∀ headerSize : UInt32, t.rowsSize headerSize.toNat < 2 ^ 32 →
      (t.rowsSize32 headerSize).toNat = t.rowsSize headerSize.toNat) := by
  intro t
  have hindexed : t.Indexed := Table.indexed_empty.applyAll operations
  refine ⟨⟨Table.values_applyAll operations, hindexed.nodup, Table.size_applyAll operations⟩, ?_⟩
  refine ⟨fun value i => ⟨hindexed value i, hindexed.add_eq_iff value i⟩, ?_,
    hindexed.get?_add_eq_some_iff, ?_, ?_, ?_, t.rowsSize_eq_sum, fun _ => Table.toNat_rowsSize32⟩
  · intro later value i hvalue
    obtain ⟨behind, hvalues⟩ := Table.values_prefix_applyAll later t
    have hlater : (t.applyAll later).values[i]? = some value := by
      rw [← hvalues, List.getElem?_append_left (List.getElem?_eq_some_iff.mp hvalue).1, hvalue]
    exact ⟨hlater, (hindexed.applyAll later value i).mpr hlater⟩
  · exact fun position address =>
      ⟨fun h => Table.addReference_of_size_le h address, t.get?_addReference position address⟩
  · exact fun value i => ⟨rfl, t.get?_clearReferences i⟩
  · exact fun e _ => ⟨e.flatten_rows, e.length_rows, e.rowCount_eq_ceilDiv,
      fun row hrow => (Entry.mem_rows hrow).2⟩

/-- Two imports that differ in their flags only, a reference to each, one to an entry that is not there,
and a reference that is forgotten. -/
def importOperations : List (Operation ImportKey) :=
  [.add ⟨1, 2, 0, 2⟩, .addReference 0 16, .clearReferences, .add ⟨1, 2, 0, 3⟩, .add ⟨1, 2, 0, 2⟩,
    .addReference 1 24, .addReference 7 32, .addReference 0 40]

theorem tables_after_operations_imports :
    let t := (Table.empty : Table ImportKey).applyAll importOperations
    t.values = [⟨1, 2, 0, 2⟩, ⟨1, 2, 0, 3⟩] ∧ t.size = 2 ∧ t.find? ⟨1, 2, 0, 3⟩ = some 1 ∧
      (t.add ⟨1, 2, 0, 3⟩).1 = 1 ∧ t.addReference 7 48 = t := by
  intro t
  obtain ⟨⟨hvalues, -, hsize⟩, hfind, hlater, -, hreference, -⟩ :=
    tables_after_operations importOperations
  have hlist : t.values = [⟨1, 2, 0, 2⟩, ⟨1, 2, 0, 3⟩] := hvalues
  have htwo : t.size = 2 := hsize
  have hsecond : t.values[1]? = some ⟨1, 2, 0, 3⟩ := by rw [hlist]; rfl
  exact ⟨hlist, htwo, (hfind _ 1).1.mpr hsecond,
    (hfind _ 1).2.mpr (hlater [.add ⟨1, 2, 0, 3⟩] _ 1 hsecond).1,
    (hreference 7 48).1 (by change t.size ≤ 7; omega)⟩

end GscAssembler.Reference
