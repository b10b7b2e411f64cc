import GscAssembler.Name.Hash
import GscAssembler.Name.Literal
import Mathlib

/-!
# The case of names, and names that are no hash literals

The bytes of a name are folded when it is hashed, and its characters when it is looked at as a hash
literal.  Folding characters first changes neither: an ASCII letter is one byte, and the bytes of all
other characters are no letters.

Whether a name is a hash literal is decided by its first characters, so the names that the compiler
makes up are none.
-/

namespace GscAssembler

namespace Text

theorem toNat_toLower (c : Char) :
    c.toLower.toNat = if 65 ≤ c.toNat ∧ c.toNat ≤ 90 then c.toNat + 32 else c.toNat := by
  unfold Char.toLower
  by_cases h : 65 ≤ c.toNat ∧ c.toNat ≤ 90
  · rw [dif_pos (show c.val ≥ 'A'.val ∧ c.val ≤ 'Z'.val from h), if_pos h]
    change (c.toNat + 32) % 4294967296 = _
    omega
  · rw [dif_neg (show ¬(c.val ≥ 'A'.val ∧ c.val ≤ 'Z'.val) from h), if_neg h]

theorem asciiLower_asciiLower (s : String) : asciiLower (asciiLower s) = asciiLower s := by
  rw [← String.toList_inj]
  simp [asciiLower, Function.comp_def]

theorem utf8_eq_flatMap (s : String) : utf8 s = s.toList.flatMap String.utf8EncodeChar := by
  calc utf8 s = (String.ofList s.toList).toByteArray.data.toList := by
        rw [String.ofList_toList]
        rfl
    _ = s.toList.flatMap String.utf8EncodeChar := by
        rw [String.toByteArray_ofList]
        simp [List.utf8Encode]

/-- The bytes of a character and of its small letter differ in case only. -/
theorem map_lowerByte_toLower (c : Char) :
    (String.utf8EncodeChar c.toLower).map lowerByte = (String.utf8EncodeChar c).map lowerByte := by
  by_cases h : 65 ≤ c.toNat ∧ c.toNat ≤ 90
  · have hbyte (d : Char) (hd : d.toNat ≤ 127) : String.utf8EncodeChar d = [UInt8.ofNat d.toNat] :=
      if_pos hd
    have hlower : c.toLower.toNat = c.toNat + 32 := by rw [toNat_toLower, if_pos h]
    rw [hbyte c (by omega), hbyte c.toLower (by omega), hlower]
    generalize c.toNat = n at h
    obtain ⟨hfirst, hlast⟩ := h
    interval_cases n <;> rfl
  · have hlower : c.toLower = c := Char.toNat_inj.mp (by rw [toNat_toLower, if_neg h])
    rw [hlower]

end Text

namespace Name

open Text (asciiLower asciiLower_asciiLower)

theorem foldedBytes_asciiLower (name : String) :
    foldedBytes (asciiLower name) = foldedBytes name := by
  simp [foldedBytes, Text.utf8_eq_flatMap, asciiLower, List.map_flatMap, List.flatMap_map,
    Text.map_lowerByte_toLower]

theorem identifierHash_asciiLower (revision : Revision) (name : String) :
    identifierHash revision (asciiLower name) = identifierHash revision name := by
  cases revision <;> simp [identifierHash, hash32, mixHash32, foldedBytes_asciiLower]

theorem pathHash_asciiLower (name : String) : pathHash (asciiLower name) = pathHash name := by
  rw [pathHash, foldedBytes_asciiLower, pathHash]

theorem literal?_asciiLower (revision : Revision) (name : String) :
    literal? revision (asciiLower name) = literal? revision name := by
  rw [literal?, asciiLower_asciiLower, literal?]

/-! ## Names that are no literals -/

theorem ne_nil_of_mem_literalStems {revision : Revision} :
    ∀ stem ∈ literalStems revision, stem.toList ≠ [] := by
  cases revision <;> decide

/-- A name is no hash literal if no stem begins with its first character. -/
theorem literal?_eq_none {revision : Revision} {name : String} (first : Char) {rest : List Char}
    (hname : name.toList = first :: rest)
    (hfirst : ∀ stem ∈ literalStems revision, stem.toList.head? ≠ some first.toLower) :
    literal? revision name = none := by
  have hfolded : (asciiLower name).toList = first.toLower :: rest.map Char.toLower := by
    simp [asciiLower, hname]
  have hstems : (literalStems revision).findSome?
      (behindStem? (asciiLower name).toList) = none := by
    refine List.findSome?_eq_none_iff.mpr fun stem hstem => ?_
    have hhead := hfirst stem hstem
    rw [hfolded, behindStem?]
    cases hchars : stem.toList with
    | nil => exact absurd hchars (ne_nil_of_mem_literalStems stem hstem)
    | cons c others =>
        rw [hchars] at hhead
        simp_all [List.isPrefixOf?]
  rw [literal?, hstems]
  rfl

end Name

end GscAssembler
