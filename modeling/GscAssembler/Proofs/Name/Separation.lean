import GscAssembler.Proofs.Name.Folding

/-!
# Names that differ in one byte have different hashes

The hash of the legacy machine and FNV-1a take in a name byte by byte: a byte is added to the hash
without carry, and the sum is multiplied by an odd factor.  Both can be undone, so from different hashes
the same bytes lead to different hashes (`absorbAll_injective`), and from the same hash different bytes
do (`absorb_byte_injective`).

No bit of a sum or product depends on higher bits.  So the low bits of such a hash are a hash of the same
kind with fewer bits (`setWidth_absorbAll`), and what holds for all widths also holds for a hash without
its top bit.
-/

namespace GscAssembler

namespace Text

/-- Among the bytes of a character that is no capital letter, there is none. -/
theorem lowerByte_of_mem_utf8EncodeChar {c : Char} (h : ¬(65 ≤ c.toNat ∧ c.toNat ≤ 90)) {b : UInt8}
    (hb : b ∈ String.utf8EncodeChar c) : lowerByte b = b := by
  have hbyte : ∀ n, ¬(65 ≤ n % 256 ∧ n % 256 ≤ 90) → lowerByte (UInt8.ofNat n) = UInt8.ofNat n := by
    intro n hn
    refine if_neg fun hletter => hn ?_
    simpa [UInt8.le_iff_toNat_le] using hletter
  have hc : ¬(65 ≤ c.val.toNat ∧ c.val.toNat ≤ 90) := h
  simp only [String.utf8EncodeChar] at hb
  split_ifs at hb <;> simp only [List.mem_cons, List.not_mem_nil, or_false] at hb <;>
    (repeat' obtain rfl | hb := hb) <;> exact hbyte _ (by omega)

/-- Folding the characters of a text folds its bytes. -/
theorem utf8_asciiLower (s : String) : utf8 (asciiLower s) = (utf8 s).map lowerByte := by
  have hchar (c : Char) :
      String.utf8EncodeChar c.toLower = (String.utf8EncodeChar c).map lowerByte := by
    have hsmall : ¬(65 ≤ c.toLower.toNat ∧ c.toLower.toNat ≤ 90) := by
      rw [toNat_toLower]
      split <;> omega
    have hfolded : (String.utf8EncodeChar c.toLower).map lowerByte =
        (String.utf8EncodeChar c.toLower).map id :=
      List.map_congr_left fun b hb => lowerByte_of_mem_utf8EncodeChar hsmall hb
    rw [← map_lowerByte_toLower, hfolded, List.map_id]
  simp [utf8_eq_flatMap, asciiLower, List.map_flatMap, List.flatMap_map, hchar]

end Text

namespace Name

open Text (asciiLower utf8 utf8_asciiLower)

variable {width : Nat} {factor : BitVec width}

/-! ## Taking in bytes -/

/-- Takes a byte into a hash. -/
def absorb (factor hash : BitVec width) (b : UInt8) : BitVec width :=
  (hash ^^^ b.toBitVec.setWidth width) * factor

/-- Takes several bytes into a hash, one after the other. -/
def absorbAll (factor hash : BitVec width) (bytes : List UInt8) : BitVec width :=
  bytes.foldl (absorb factor) hash

/-- Multiplication by an odd number can be undone. -/
theorem mul_injective_of_odd (hodd : factor.toNat % 2 = 1) :
    Function.Injective fun x : BitVec width => x * factor := by
  intro x y hxy
  have hcoprime : Nat.gcd (2 ^ width) factor.toNat = 1 :=
    Nat.Coprime.pow_left width (Nat.coprime_two_left.mpr (Nat.odd_iff.mpr hodd))
  have hmod : x.toNat * factor.toNat ≡ y.toNat * factor.toNat [MOD 2 ^ width] := by
    simpa [Nat.ModEq] using congrArg BitVec.toNat hxy
  have hcancel : x.toNat ≡ y.toNat [MOD 2 ^ width] := hmod.cancel_right_of_coprime hcoprime
  exact BitVec.eq_of_toNat_eq (hcancel.eq_of_lt_of_lt x.isLt y.isLt)

theorem absorb_injective (hodd : factor.toNat % 2 = 1) (b : UInt8) :
    Function.Injective fun hash => absorb factor hash b := by
  intro x y hxy
  exact (BitVec.xor_left_inj _).mp (mul_injective_of_odd hodd hxy)

/-- From one hash, different bytes lead to different hashes. -/
theorem absorb_byte_injective (hodd : factor.toNat % 2 = 1) (hwidth : 8 ≤ width)
    (hash : BitVec width) : Function.Injective (absorb factor hash) := by
  intro b c hbc
  have hbyte : b.toBitVec.setWidth width = c.toBitVec.setWidth width :=
    (BitVec.xor_right_inj _).mp (mul_injective_of_odd hodd hbc)
  have hnarrow := congrArg (BitVec.setWidth 8) hbyte
  simp only [BitVec.setWidth_setWidth_of_le _ hwidth, BitVec.setWidth_eq] at hnarrow
  exact UInt8.toBitVec_inj.mp hnarrow

/-- From different hashes, the same bytes lead to different hashes. -/
theorem absorbAll_injective (hodd : factor.toNat % 2 = 1) (bytes : List UInt8) :
    Function.Injective fun hash => absorbAll factor hash bytes := by
  induction bytes with
  | nil => exact fun _ _ h => h
  | cons b bytes ih => exact ih.comp (absorb_injective hodd b)

/-- The low bits of a hash are a hash with fewer bits. -/
theorem setWidth_absorbAll {narrow : Nat} (hle : narrow ≤ width) (bytes : List UInt8) :
    ∀ hash : BitVec width, (absorbAll factor hash bytes).setWidth narrow =
      absorbAll (factor.setWidth narrow) (hash.setWidth narrow) bytes := by
  induction bytes with
  | nil => exact fun _ => rfl
  | cons b bytes ih =>
      intro hash
      have hstep : (absorb factor hash b).setWidth narrow =
          absorb (factor.setWidth narrow) (hash.setWidth narrow) b := by
        rw [absorb, BitVec.setWidth_mul _ _ hle, BitVec.setWidth_xor,
          BitVec.setWidth_setWidth_of_le _ hle, absorb]
      exact (ih (absorb factor hash b)).trans (congrArg (absorbAll _ · bytes) hstep)

/-! ## Bytes that differ at one position -/

/-- Whether two sequences of bytes are equally long and differ at exactly one position. -/
def DifferOnce (first second : List UInt8) : Prop :=
  first.length = second.length ∧ ∃! i : Nat, first[i]? ≠ second[i]?

/-- What differs once is the same before and behind some position. -/
theorem DifferOnce.exists_append {first second : List UInt8} (h : DifferOnce first second) :
    ∃ before b c after, b ≠ c ∧ first = before ++ b :: after ∧ second = before ++ c :: after := by
  obtain ⟨hlength, i, hdiffer, honly⟩ := h
  have hsame : ∀ j, j ≠ i → first[j]? = second[j]? := fun j hj => by
    by_contra hne
    exact hj (honly j hne)
  have hi : i < first.length := by
    by_contra hge
    exact hdiffer (by rw [List.getElem?_eq_none (by omega), List.getElem?_eq_none (by omega)])
  have hi' : i < second.length := hlength ▸ hi
  have hbefore : first.take i = second.take i := by
    refine List.ext_getElem? fun j => ?_
    rw [List.getElem?_take, List.getElem?_take]
    split
    · exact hsame j (by omega)
    · rfl
  have hafter : first.drop (i + 1) = second.drop (i + 1) := by
    refine List.ext_getElem? fun j => ?_
    rw [List.getElem?_drop, List.getElem?_drop]
    exact hsame _ (by omega)
  refine ⟨first.take i, first[i], second[i], first.drop (i + 1), ?_, ?_, ?_⟩
  · simpa [List.getElem?_eq_getElem hi, List.getElem?_eq_getElem hi'] using hdiffer
  · rw [List.getElem_cons_drop, List.take_append_drop]
  · rw [hbefore, hafter, List.getElem_cons_drop, List.take_append_drop]

/-- Bytes that differ once have different hashes. -/
theorem absorbAll_ne_of_differOnce (hodd : factor.toNat % 2 = 1) (hwidth : 8 ≤ width)
    (hash : BitVec width) {first second : List UInt8} (h : DifferOnce first second) :
    absorbAll factor hash first ≠ absorbAll factor hash second := by
  obtain ⟨before, b, c, after, hbc, rfl, rfl⟩ := h.exists_append
  intro heq
  simp only [absorbAll, List.foldl_append, List.foldl_cons] at heq
  exact hbc (absorb_byte_injective hodd hwidth _ (absorbAll_injective hodd after heq))

/-! ## The hashes of names -/

theorem toBitVec_hash32 (name : String) : (hash32 name).toBitVec =
    absorbAll hashFactor.toBitVec hashSeed.toBitVec (foldedBytes name) * hashFactor.toBitVec := by
  rw [hash32, UInt32.toBitVec_mul]
  congr 1
  generalize hashSeed = hash
  induction foldedBytes name generalizing hash with
  | nil => rfl
  | cons b bytes ih =>
      rw [List.foldl_cons, ih, absorbAll, absorbAll, List.foldl_cons, absorb, UInt32.toBitVec_mul,
        UInt32.toBitVec_xor, UInt8.toBitVec_toUInt32, BitVec.xor_comm]

theorem toBitVec_fnv1a64With (bytes : List UInt8) (offset prime : UInt64) :
    (fnv1a64With bytes offset prime).toBitVec =
      absorbAll prime.toBitVec offset.toBitVec bytes := by
  induction bytes generalizing offset with
  | nil => rfl
  | cons b bytes ih =>
      rw [fnv1a64With, List.foldl_cons, ← fnv1a64With, ih, absorbAll, absorbAll, List.foldl_cons,
        absorb, UInt64.toBitVec_mul, UInt64.toBitVec_xor, UInt8.toBitVec_toUInt64]

/-- A path hash is what is left of FNV-1a in 63 bits. -/
theorem setWidth_pathHash (name : String) : (pathHash name).toBitVec.setWidth 63 =
    absorbAll 0x100000001B3 0x4BF29CE484222325 (foldedBytes name) := by
  have hlow : (pathHash name).toBitVec.setWidth 63 =
      (fnv1a64 (foldedBytes name)).toBitVec.setWidth 63 := by
    have hmask : (0x7FFFFFFFFFFFFFFF : UInt64).toNat = 2 ^ 63 - 1 := rfl
    apply BitVec.eq_of_toNat_eq
    rw [pathHash, BitVec.toNat_setWidth, BitVec.toNat_setWidth, UInt64.toNat_toBitVec,
      UInt64.toNat_toBitVec, UInt64.toNat_and, hmask, Nat.and_comm, Nat.and_two_pow_sub_one_eq_mod,
      Nat.mod_mod]
  rw [hlow, fnv1a64, toBitVec_fnv1a64With, setWidth_absorbAll (by decide)]
  rfl

/-- A difference of one byte is seen by the hashes of names, and a difference of case is not.  If two
texts are equally long and, with their ASCII letters in lower case, differ in exactly one byte, then
their hashes on the legacy machine are different, and so are their 64-bit FNV-1a hashes and what is left
of these without the top bit.  Texts that differ in case only have the same hashes of every sort. -/
theorem hashes_see_one_byte (first second : String) :
    ((utf8 first).length = (utf8 second).length →
      (∃! i : Nat, (utf8 (asciiLower first))[i]? ≠ (utf8 (asciiLower second))[i]?) →
      hash32 first ≠ hash32 second ∧
      fnv1a64 (utf8 (asciiLower first)) ≠ fnv1a64 (utf8 (asciiLower second)) ∧
      pathHash first ≠ pathHash second) ∧
    (asciiLower first = asciiLower second →
      hash32 first = hash32 second ∧ mixHash32 first = mixHash32 second ∧
      pathHash first = pathHash second) := by
  constructor
  · intro hlength hdiffer
    rw [utf8_asciiLower, utf8_asciiLower] at hdiffer ⊢
    have honce : DifferOnce (foldedBytes first) (foldedBytes second) :=
      ⟨by simpa [foldedBytes] using hlength, hdiffer⟩
    refine ⟨fun heq => ?_, fun heq => ?_, fun heq => ?_⟩
    · have hproduct := congrArg UInt32.toBitVec heq
      rw [toBitVec_hash32, toBitVec_hash32] at hproduct
      exact absorbAll_ne_of_differOnce (by decide) (by decide) _ honce
        (mul_injective_of_odd (by decide) hproduct)
    · have hwords := congrArg UInt64.toBitVec heq
      rw [fnv1a64, fnv1a64, toBitVec_fnv1a64With, toBitVec_fnv1a64With] at hwords
      exact absorbAll_ne_of_differOnce (by decide) (by decide) _ honce hwords
    · have hlow := congrArg (fun hash : UInt64 => hash.toBitVec.setWidth 63) heq
      simp only [setWidth_pathHash] at hlow
      exact absorbAll_ne_of_differOnce (by decide) (by decide) _ honce hlow
  · intro heq
    have hbytes : foldedBytes first = foldedBytes second := by
      rw [← foldedBytes_asciiLower, heq, foldedBytes_asciiLower]
    simp only [hash32, mixHash32, pathHash, hbytes, and_self]

theorem hashes_see_one_byte_players :
    (utf8 "Player_1").length = (utf8 "plaYer_2").length ∧
    (∃! i : Nat, (utf8 (asciiLower "Player_1"))[i]? ≠ (utf8 (asciiLower "plaYer_2"))[i]?) ∧
    hash32 "Player_1" ≠ hash32 "plaYer_2" ∧
    fnv1a64 (utf8 (asciiLower "Player_1")) ≠ fnv1a64 (utf8 (asciiLower "plaYer_2")) ∧
    pathHash "Player_1" ≠ pathHash "plaYer_2" ∧
    asciiLower "Player_1" = asciiLower "plaYer_1" ∧ hash32 "Player_1" = hash32 "plaYer_1" ∧
    mixHash32 "Player_1" = mixHash32 "plaYer_1" ∧ pathHash "Player_1" = pathHash "plaYer_1" := by
  have hsame : asciiLower "Player_1" = asciiLower "plaYer_1" := by
    rw [← String.toList_inj, asciiLower, asciiLower, String.toList_map, String.toList_map]
    decide
  have hlength : (utf8 "Player_1").length = (utf8 "plaYer_2").length := rfl
  have hdiffer : ∃! i : Nat, (utf8 (asciiLower "Player_1"))[i]? ≠
      (utf8 (asciiLower "plaYer_2"))[i]? := by
    have hfirst : utf8 (asciiLower "Player_1") = [112, 108, 97, 121, 101, 114, 95, 49] := by
      rw [utf8_asciiLower]
      decide
    have hsecond : utf8 (asciiLower "plaYer_2") = [112, 108, 97, 121, 101, 114, 95, 50] := by
      rw [utf8_asciiLower]
      decide
    rw [hfirst, hsecond]
    refine ⟨7, by decide, fun i hi => ?_⟩
    by_contra hne
    rcases Nat.lt_or_ge i 8 with hlt | hge
    · interval_cases i <;> simp_all
    · exact hi (by rw [List.getElem?_eq_none hge, List.getElem?_eq_none hge])
  obtain ⟨hhash, hfnv, hpath⟩ := (hashes_see_one_byte "Player_1" "plaYer_2").1 hlength hdiffer
  exact ⟨hlength, hdiffer, hhash, hfnv, hpath, hsame, (hashes_see_one_byte "Player_1" "plaYer_1").2 hsame⟩

end Name

end GscAssembler
