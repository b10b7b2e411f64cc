/-!
# Alignment of addresses

Operands and sections start on multiples of a power of two.  `align` is the next such multiple, and
`sectionPadding` what a section needs behind its contents so that the following one starts on a
multiple of 16.
-/

namespace GscAssembler.Bytes

/-- The least multiple of `alignment` that is at least `value`. -/
def align (value alignment : Nat) : Nat :=
  (value + (alignment - 1)) / alignment * alignment

/-- The boundary on which sections end. -/
def sectionAlignment : Nat := 16

/-- The padding behind `raw` bytes at `base` that ends them on a section boundary. -/
def sectionPadding (base raw : Nat) : Nat :=
  align (base + raw) sectionAlignment - (base + raw)

theorem le_align {value alignment : Nat} (h : 0 < alignment) : value ≤ align value alignment := by
  unfold align
  have hdiv := Nat.div_add_mod (value + (alignment - 1)) alignment
  have hmod := Nat.mod_lt (value + (alignment - 1)) h
  rw [Nat.mul_comm] at hdiv
  omega

theorem dvd_align (value alignment : Nat) : alignment ∣ align value alignment :=
  ⟨(value + (alignment - 1)) / alignment, Nat.mul_comm _ _⟩

end GscAssembler.Bytes
