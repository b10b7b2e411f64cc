import GscAssembler.Number.Decimal
import Mathlib

/-!
# Spelled integers

An integer is spelled by decimal digits, with a sign before them or without, and with as many zeros at
the start as one likes.  A token that spells an integer of 64 bits is read as that integer; one that
spells any other is read as a number of single precision, if there is one that large
(`readToken?_of_spells`).
-/

namespace GscAssembler.Number

/-- The number that decimal digits stand for. -/
def digitsValue (digits : List Char) : Nat :=
  Nat.ofDigits 10 (digits.reverse.map fun c => c.toNat - '0'.toNat)

/-- Whether characters spell an integer. -/
inductive Spells : List Char → Int → Prop where
  /-- Digits without a sign. -/
  | bare {digits : List Char} (hsome : digits ≠ []) (hdigits : ∀ c ∈ digits, c.isDigit) :
      Spells digits (digitsValue digits)
  /-- Digits behind a plus sign. -/
  | plus {digits : List Char} (hsome : digits ≠ []) (hdigits : ∀ c ∈ digits, c.isDigit) :
      Spells ('+' :: digits) (digitsValue digits)
  /-- Digits behind a minus sign. -/
  | minus {digits : List Char} (hsome : digits ≠ []) (hdigits : ∀ c ∈ digits, c.isDigit) :
      Spells ('-' :: digits) (-digitsValue digits)

/-! ## Reading digits -/

theorem digitValue?_of_isDigit {c : Char} (h : c.isDigit) : digitValue? c = some (c.toNat - 48) := by
  simp only [Char.isDigit, Bool.and_eq_true, decide_eq_true_eq] at h
  exact if_pos ⟨h.1, h.2⟩

theorem takeDigits_of_isDigit {digits : List Char} (h : ∀ c ∈ digits, c.isDigit) :
    takeDigits digits = (digits.map fun c => c.toNat - 48, []) := by
  induction digits with
  | nil => rfl
  | cons c rest ih =>
      rw [takeDigits, digitValue?_of_isDigit (h c List.mem_cons_self),
        ih fun c hc => h c (List.mem_cons_of_mem _ hc)]
      rfl

/-- Digits are taken from the left, each counting ten times as much as the next. -/
theorem ofDigits_eq (digits : List Nat) : ofDigits digits = Nat.ofDigits 10 digits.reverse := by
  induction digits using List.reverseRecOn with
  | nil => rfl
  | append_singleton digits digit ih =>
      rw [List.reverse_concat, Nat.ofDigits_cons, ← ih, ofDigits, List.foldl_append]
      change ofDigits digits * 10 + digit = _
      omega

theorem ofDigits_of_isDigit (digits : List Char) :
    ofDigits (digits.map fun c => c.toNat - 48) = digitsValue digits := by
  rw [ofDigits_eq, ← List.map_reverse]
  rfl

/-- A digit is no sign. -/
theorem takeSign_of_isDigit {digits : List Char} (h : ∀ c ∈ digits, c.isDigit) :
    takeSign digits = (false, digits) := by
  unfold takeSign
  split
  · exact absurd (h '-' List.mem_cons_self) (by decide)
  · exact absurd (h '+' List.mem_cons_self) (by decide)
  · rfl

/-- A numeral of digits alone, behind a sign that was taken. -/
theorem readNumeral?_of_takeSign {token digits : List Char} {negative : Bool}
    (hsign : takeSign token = (negative, digits)) (hsome : digits ≠ [])
    (h : ∀ c ∈ digits, c.isDigit) :
    readNumeral? token = some ⟨negative, digits.map fun c => c.toNat - 48, [], 0, true⟩ := by
  have hempty : (digits.map fun c => c.toNat - 48).isEmpty = false := by simpa using hsome
  simp [readNumeral?, hsign, takeDigits_of_isDigit h, hempty, readExponent?]

theorem exists_numeral_of_spells {token : List Char} {n : Int} (h : Spells token n) :
    ∃ numeral, readNumeral? token = some numeral ∧ numeral.plain = true ∧
      (if numeral.negative then -(ofDigits numeral.whole : Int) else ofDigits numeral.whole) = n := by
  cases h with
  | bare hsome hdigits =>
      exact ⟨_, readNumeral?_of_takeSign (takeSign_of_isDigit hdigits) hsome hdigits, rfl,
        by simp [ofDigits_of_isDigit]⟩
  | plus hsome hdigits =>
      exact ⟨_, readNumeral?_of_takeSign rfl hsome hdigits, rfl, by simp [ofDigits_of_isDigit]⟩
  | minus hsome hdigits =>
      exact ⟨_, readNumeral?_of_takeSign rfl hsome hdigits, rfl, by simp [ofDigits_of_isDigit]⟩

/-- What the token of an integer is read as. -/
theorem readToken?_of_spells {token : String} {n : Int} (h : Spells token.toList n) :
    (fitsInt64 n = true → readToken? token = some (.int n)) ∧
    (fitsInt64 n = false →
      readToken? token = none ∨ ∃ bits, readToken? token = some (.float bits)) := by
  obtain ⟨numeral, hread, hplain, rfl⟩ := exists_numeral_of_spells h
  refine ⟨fun hfits => ?_, fun hfits => ?_⟩
  · simp [readToken?, hread, hplain, hfits]
  · simp only [readToken?, hread, hplain, hfits, Option.bind_eq_bind, Option.bind_some, Bool.and_false,
      Bool.false_eq_true, if_false]
    cases numeral.nearestSingle? with
    | none => exact .inl rfl
    | some bits => exact .inr ⟨bits, rfl⟩

end GscAssembler.Number
