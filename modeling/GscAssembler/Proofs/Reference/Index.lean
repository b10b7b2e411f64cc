import GscAssembler.Proofs.Reference.Rows

/-!
# Tables find what they hold

The index of a table gives the position of exactly those values that the table holds (`Indexed`), so a
table holds no value twice, and asking for a value gives the position at which it stands, in the table
as it is or one value longer.  Nothing that happens to a table breaks this, and whoever remembers the
position of a value still finds it there later (`Tables.Extends`).
-/

namespace GscAssembler.Reference

instance : Std.TransOrd ImportKey :=
  inferInstanceAs (Std.TransCmp (compareLex (compareOn ImportKey.function)
    (compareLex (compareOn ImportKey.namespaceHash)
      (compareLex (compareOn ImportKey.params) (compareOn ImportKey.flags)))))

instance : Std.LawfulEqOrd ImportKey where
  eq_of_compare {a b} h := by
    obtain ⟨hfunction, hrest⟩ := compareLex_eq_eq.mp h
    obtain ⟨hnamespace, hrest⟩ := compareLex_eq_eq.mp hrest
    obtain ⟨hparams, hflags⟩ := compareLex_eq_eq.mp hrest
    obtain ⟨function, namespaceHash, params, flags⟩ := a
    obtain ⟨function', namespaceHash', params', flags'⟩ := b
    simp only [compareOn, Std.LawfulEqOrd.compare_eq_iff_eq] at hfunction hnamespace hparams hflags
    simp [hfunction, hnamespace, hparams, hflags]

namespace Table

variable {α : Type} [Ord α]

/-- Whether the index finds exactly the values of the table. -/
def Indexed (t : Table α) : Prop :=
  ∀ value position, t.find? value = some position ↔ t.values[position]? = some value

theorem Indexed.nodup {t : Table α} (h : t.Indexed) : t.values.Nodup := by
  rw [List.nodup_iff_injective_get]
  intro i j hij
  have hi := (h (t.values.get i) i).mpr (by simp)
  have hj := (h (t.values.get i) j).mpr (by rw [hij]; simp)
  rw [hi] at hj
  exact Fin.ext (Option.some.inj hj)

theorem Indexed.of_values_eq {t u : Table α} (h : t.Indexed) (hvalues : u.values = t.values)
    (hindex : u.index = t.index) : u.Indexed := by
  intro value position
  rw [find?, hindex, hvalues]
  exact h value position

theorem Indexed.addReference {t : Table α} (h : t.Indexed) (position address : Nat) :
    (t.addReference position address).Indexed :=
  h.of_values_eq (by simp) rfl

theorem Indexed.clearReferences {t : Table α} (h : t.Indexed) : t.clearReferences.Indexed :=
  h.of_values_eq (by simp) rfl

theorem values_add (t : Table α) (value : α) :
    (t.add value).2.values = match t.find? value with
      | some _ => t.values
      | none => t.values ++ [value] := by
  unfold add
  cases t.find? value <;> simp [values]

theorem mem_values_add {t : Table α} {value other : α} (h : other ∈ (t.add value).2.values) :
    other ∈ t.values ∨ other = value := by
  rw [values_add] at h
  split at h
  · exact .inl h
  · simpa using h

/-- Asking for a value keeps the values that are there. -/
theorem values_prefix_add (t : Table α) (value : α) : t.values <+: (t.add value).2.values := by
  rw [values_add]
  split
  · exact List.prefix_refl _
  · exact List.prefix_append _ _

/-- The position that asking for a value gives is that of the value. -/
theorem Indexed.getElem?_add {t : Table α} (h : t.Indexed) (value : α) :
    (t.add value).2.values[(t.add value).1]? = some value := by
  cases hfind : t.find? value with
  | some i =>
      have hvalue := (h value i).mp hfind
      rw [values_add, hfind]
      simpa [Table.add, hfind] using hvalue
  | none =>
      have hposition : (t.add value).1 = t.values.length := by
        simp only [Table.add, hfind, length_values, size]
      rw [values_add, hfind, hposition]
      simp

variable [Std.TransOrd α] [Std.LawfulEqOrd α]

omit [Std.LawfulEqOrd α] in
theorem indexed_empty : (empty : Table α).Indexed := by
  intro value position
  simp [find?, empty, values]

omit [Std.LawfulEqOrd α] in
theorem find?_add_of_none {t : Table α} {value : α} (h : t.find? value = none) (other : α) :
    (t.add value).2.find? other =
      if compare value other = .eq then some t.values.length else t.find? other := by
  have hadd : (t.add value).2.index = t.index.insert value t.values.length := by
    simp only [Table.add, h, length_values, size]
  rw [find?, hadd, Std.TreeMap.getElem?_insert]
  rfl

theorem Indexed.add {t : Table α} (h : t.Indexed) (value : α) : (t.add value).2.Indexed := by
  intro other position
  cases hfind : t.find? value with
  | some i =>
      rw [values_add, hfind]
      simp only [Table.add, hfind]
      exact h other position
  | none =>
      have hnew : value ∉ t.values := by
        intro hmem
        obtain ⟨i, hi⟩ := List.mem_iff_getElem?.mp hmem
        rw [(h value i).mpr hi] at hfind
        cases hfind
      rw [values_add, find?_add_of_none hfind, hfind]
      by_cases heq : value = other
      · subst heq
        rw [if_pos Std.ReflCmp.compare_self]
        constructor
        · rintro hposition
          obtain rfl := Option.some.inj hposition
          simp
        · intro hposition
          rcases Nat.lt_trichotomy position t.values.length with hlt | rfl | hgt
          · rw [List.getElem?_append_left hlt] at hposition
            exact absurd (List.mem_of_getElem? hposition) hnew
          · rfl
          · rw [List.getElem?_eq_none (by simp; omega)] at hposition
            cases hposition
      · rw [if_neg fun hcompare => heq (Std.LawfulEqOrd.eq_of_compare hcompare)]
        refine (h other position).trans ⟨fun hposition => ?_, fun hposition => ?_⟩
        · rw [List.getElem?_append_left (List.getElem?_eq_some_iff.mp hposition).1]
          exact hposition
        · rcases Nat.lt_or_ge position t.values.length with hlt | hge
          · rwa [List.getElem?_append_left hlt] at hposition
          · rw [List.getElem?_append_right hge] at hposition
            have := List.mem_of_getElem? hposition
            simp_all

end Table

/-- Whether the index of each table finds exactly its values. -/
structure Tables.Indexed (t : Tables) : Prop where
  strings : t.strings.Indexed
  imports : t.imports.Indexed
  globals : t.globals.Indexed
  debug : t.debug.Indexed

theorem Tables.indexed_empty : ({} : Tables).Indexed :=
  ⟨Table.indexed_empty, Table.indexed_empty, Table.indexed_empty, Table.indexed_empty⟩

/-! ## Values by the kind of their table -/

/-- A value of one of the tables of a script. -/
inductive TableValue where
  /-- A text. -/
  | text (text : String)
  /-- An import. -/
  | function (key : ImportKey)
  /-- The hash of a global object or developer string. -/
  | hash (hash : UInt32)
  deriving DecidableEq, Repr

namespace Tables

/-- The value at a position of a table. -/
def value? (t : Tables) (kind : TableKind) (entry : Nat) : Option TableValue :=
  match kind with
  | .strings => t.strings.values[entry]?.map .text
  | .imports => t.imports.values[entry]?.map .function
  | .globals => t.globals.values[entry]?.map .hash
  | .debug => t.debug.values[entry]?.map .hash

/-- Whether the values of some tables have the same positions in others. -/
def Extends (t u : Tables) : Prop :=
  ∀ kind entry value, t.value? kind entry = some value → u.value? kind entry = some value

theorem Extends.refl (t : Tables) : t.Extends t :=
  fun _ _ _ h => h

theorem Extends.trans {t u v : Tables} (h : t.Extends u) (h' : u.Extends v) : t.Extends v :=
  fun kind entry value hvalue => h' kind entry value (h kind entry value hvalue)

theorem extends_of_prefix {t u : Tables} (hstrings : t.strings.values <+: u.strings.values)
    (himports : t.imports.values <+: u.imports.values)
    (hglobals : t.globals.values <+: u.globals.values) (hdebug : t.debug.values <+: u.debug.values) :
    t.Extends u := by
  intro kind entry value h
  have hmap : ∀ {α : Type} {l l' : List α} {f : α → TableValue}, l <+: l' →
      l[entry]?.map f = some value → l'[entry]?.map f = some value := by
    rintro α l l' f ⟨rest, rfl⟩ hvalue
    obtain ⟨a, ha, rfl⟩ := Option.map_eq_some_iff.mp hvalue
    rw [List.getElem?_append_left (List.getElem?_eq_some_iff.mp ha).1, ha]
    rfl
  cases kind with
  | strings => exact hmap hstrings h
  | imports => exact hmap himports h
  | globals => exact hmap hglobals h
  | debug => exact hmap hdebug h

/-- Whether asking some tables for a value gave the others and the position of the value. -/
structure Interned (t u : Tables) (kind : TableKind) (entry : Nat) (value : TableValue) : Prop where
  indexed : u.Indexed
  extended : t.Extends u
  value : u.value? kind entry = some value

section Interning

variable {t : Tables}

theorem Indexed.internString (h : t.Indexed) (text : String) :
    t.Interned { t with strings := (t.strings.add text).2 } .strings (t.strings.add text).1
      (.text text) where
  indexed := ⟨h.strings.add text, h.imports, h.globals, h.debug⟩
  extended := extends_of_prefix (t.strings.values_prefix_add text) (List.prefix_refl _)
    (List.prefix_refl _) (List.prefix_refl _)
  value := congrArg (Option.map _) (h.strings.getElem?_add text)

theorem Indexed.internImport (h : t.Indexed) (key : ImportKey) :
    t.Interned { t with imports := (t.imports.add key).2 } .imports (t.imports.add key).1
      (.function key) where
  indexed := ⟨h.strings, h.imports.add key, h.globals, h.debug⟩
  extended := extends_of_prefix (List.prefix_refl _) (t.imports.values_prefix_add key)
    (List.prefix_refl _) (List.prefix_refl _)
  value := congrArg (Option.map _) (h.imports.getElem?_add key)

theorem Indexed.internGlobal (h : t.Indexed) (hash : UInt32) :
    t.Interned { t with globals := (t.globals.add hash).2 } .globals (t.globals.add hash).1
      (.hash hash) where
  indexed := ⟨h.strings, h.imports, h.globals.add hash, h.debug⟩
  extended := extends_of_prefix (List.prefix_refl _) (List.prefix_refl _)
    (t.globals.values_prefix_add hash) (List.prefix_refl _)
  value := congrArg (Option.map _) (h.globals.getElem?_add hash)

theorem Indexed.internDebugString (h : t.Indexed) (hash : UInt32) :
    t.Interned { t with debug := (t.debug.add hash).2 } .debug (t.debug.add hash).1
      (.hash hash) where
  indexed := ⟨h.strings, h.imports, h.globals, h.debug.add hash⟩
  extended := extends_of_prefix (List.prefix_refl _) (List.prefix_refl _) (List.prefix_refl _)
    (t.debug.values_prefix_add hash)
  value := congrArg (Option.map _) (h.debug.getElem?_add hash)

end Interning

end Tables

end GscAssembler.Reference
