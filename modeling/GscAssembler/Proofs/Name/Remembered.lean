import GscAssembler.Name.Registry
import GscAssembler.Proofs.Name.Folding

/-!
# What is remembered of names

A registry is `Sound` if every text in it is one that hashing could have put there: in lower case, no
hash literal, and under a hash of its own.  Hashing keeps that, and only ever adds to a registry.
-/

namespace GscAssembler.Name

open Text (asciiLower)

/-- Whether a value is a hash of a text on a revision.  The newer machine has two of them. -/
def HashOf (text : String) (hash : UInt64) : Revision → Prop
  | .legacy => hash = (hash32 text).toUInt64
  | .rev36 => hash = (mixHash32 text).toUInt64 ∨ hash = pathHash text

theorem hashOf_identifierHash (revision : Revision) (name : String) :
    HashOf name (identifierHash revision name).toUInt64 revision := by
  cases revision with
  | legacy => rfl
  | rev36 => exact .inl rfl

theorem hashOf_asciiLower {revision : Revision} {name : String} {hash : UInt64} :
    HashOf (asciiLower name) hash revision ↔ HashOf name hash revision := by
  have hidentifier := identifierHash_asciiLower revision name
  cases revision <;> simp_all [HashOf, identifierHash, pathHash_asciiLower]

namespace Registry

variable {revision : Revision} {r r' : Registry} {name : String}

/-- The text remembered under a hash. -/
def text? (r : Registry) (hash : UInt64) : Option String :=
  r.names[hash]?

/-- A registry has at least the texts of another. -/
instance : LE Registry where
  le r r' := ∀ hash text, r.text? hash = some text → r'.text? hash = some text

protected theorem le_refl (r : Registry) : r ≤ r := fun _ _ h => h

protected theorem le_trans {r₁ r₂ r₃ : Registry} (h : r₁ ≤ r₂) (h' : r₂ ≤ r₃) : r₁ ≤ r₃ :=
  fun hash text htext => h' hash text (h hash text htext)

/-- Every text could have been remembered by hashing it. -/
def Sound (revision : Revision) (r : Registry) : Prop :=
  ∀ hash text, r.text? hash = some text →
    asciiLower text = text ∧ literal? revision text = none ∧ HashOf text hash revision

theorem sound_empty (revision : Revision) : Sound revision {} :=
  fun hash text h => by simp [text?] at h

theorem text?_remember (r : Registry) (hash : UInt64) (name : String) (other : UInt64) :
    (r.remember hash name).text? other =
      if hash = other ∧ r.text? hash = none then some (asciiLower name) else r.text? other := by
  simp [text?, remember, Std.TreeMap.getElem?_insertIfNew]

theorem le_remember (r : Registry) (hash : UInt64) (name : String) : r ≤ r.remember hash name := by
  intro other text h
  rw [text?_remember, if_neg, h]
  rintro ⟨rfl, hnone⟩
  rw [hnone] at h
  cases h

/-- Some text is remembered under a hash afterwards. -/
theorem exists_text?_remember (r : Registry) (hash : UInt64) (name : String) :
    ∃ text, (r.remember hash name).text? hash = some text := by
  rw [text?_remember]
  cases h : r.text? hash with
  | none => exact ⟨_, if_pos ⟨rfl, rfl⟩⟩
  | some text => exact ⟨text, if_neg (by simp)⟩

theorem Sound.remember (h : r.Sound revision) {hash : UInt64} (hname : literal? revision name = none)
    (hhash : HashOf name hash revision) : (r.remember hash name).Sound revision := by
  intro other text htext
  rw [text?_remember] at htext
  split at htext
  case isTrue hnew =>
      cases htext
      rw [Text.asciiLower_asciiLower, literal?_asciiLower, hashOf_asciiLower, ← hnew.1]
      exact ⟨rfl, hname, hhash⟩
  case isFalse => exact h other text htext

/-- What hashing a name gives: the value of a literal that has 32 bits, or else the hash, under which
the name is remembered. -/
theorem hash_eq_ok {hash : UInt32} : r.hash revision name = .ok (hash, r') ↔
    (∃ value, literal? revision name = some value ∧ value.toNat < 0x100000000 ∧
      hash = value.toUInt32 ∧ r' = r) ∨
    (literal? revision name = none ∧ hash = identifierHash revision name ∧
      r' = r.remember hash.toUInt64 name) := by
  unfold Registry.hash hashName
  cases literal? revision name with
  | none => grind
  | some value => grind

/-- What hashing a path or canonical value gives. -/
theorem hash64_eq_ok {hash : UInt64} : r.hash64 revision name = .ok (hash, r') ↔
    (literal? revision name = some hash ∧ (revision = .legacy → hash.toNat < 0x100000000) ∧
      r' = r) ∨
    (literal? revision name = none ∧
      (hash = match revision with
        | .legacy => (identifierHash .legacy name).toUInt64
        | .rev36 => pathHash name) ∧
      r' = r.remember hash name) := by
  unfold Registry.hash64 hashName
  cases literal? revision name with
  | none => cases revision <;> grind
  | some value => cases revision <;> grind

/-- Hashing adds to what is remembered, and keeps it sound. -/
theorem le_of_hash {hash : UInt32} (h : r.hash revision name = .ok (hash, r')) : r ≤ r' := by
  rcases hash_eq_ok.mp h with ⟨value, -, -, -, rfl⟩ | ⟨-, -, rfl⟩
  · exact Registry.le_refl _
  · exact le_remember _ _ _

theorem Sound.hash {hash : UInt32} (hsound : r.Sound revision)
    (h : r.hash revision name = .ok (hash, r')) : r'.Sound revision := by
  rcases hash_eq_ok.mp h with ⟨value, -, -, -, rfl⟩ | ⟨hname, rfl, rfl⟩
  · exact hsound
  · exact hsound.remember hname (hashOf_identifierHash revision name)

theorem le_of_hash64 {hash : UInt64} (h : r.hash64 revision name = .ok (hash, r')) : r ≤ r' := by
  rcases hash64_eq_ok.mp h with ⟨-, -, rfl⟩ | ⟨-, -, rfl⟩
  · exact Registry.le_refl _
  · exact le_remember _ _ _

theorem Sound.hash64 {hash : UInt64} (hsound : r.Sound revision)
    (h : r.hash64 revision name = .ok (hash, r')) : r'.Sound revision := by
  rcases hash64_eq_ok.mp h with ⟨-, -, rfl⟩ | ⟨hname, rfl, rfl⟩
  · exact hsound
  · refine hsound.remember hname ?_
    cases revision with
    | legacy => exact hashOf_identifierHash .legacy name
    | rev36 => exact .inr rfl

end Registry

end GscAssembler.Name
