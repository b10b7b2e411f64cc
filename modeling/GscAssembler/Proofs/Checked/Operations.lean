import GscAssembler.Error
import GscAssembler.Proofs.Bytes.Buffer
import GscAssembler.Proofs.Code.ChainSlots

/-!
# Operations with checks

The compiler takes much for granted: that a position is there, that a buffer is not padded to less
than it holds, that a difference is not below zero.  The operations of this module do the same, but
look first, and stop with a `Breach` where something taken for granted does not hold.

A computation with checks `Agrees` with one without if it comes to no breach: it ends with the same
result, or stops with the same error.  The rules of `Agrees` follow the two side by side.
-/

namespace GscAssembler.Checked

open Bytes (Buffer)
open Code (Chain Key)

variable {α β : Type}

/-! ## Breaches -/

/-- What was taken for granted and does not hold. -/
inductive Breach where
  /-- A position or range that is looked up is not there. -/
  | outside
  /-- A buffer is padded to less than it holds. -/
  | shrunk
  /-- A difference is below zero. -/
  | negative
  /-- Something else that is assumed is not so. -/
  | unexpected
  deriving DecidableEq

/-- Why a computation with checks stops early. -/
inductive Stop where
  /-- What is compiled has an error. -/
  | error (e : CompileError)
  /-- The compiler took something for granted that does not hold. -/
  | breach (b : Breach)
  deriving DecidableEq

/-- A computation with checks. -/
abbrev Checks := Except Stop

theorem ok_bind {ε : Type} (a : α) (f : α → Except ε β) : (Except.ok a >>= f) = f a := rfl

/-- A computation without checks. -/
def plain (x : Except CompileError α) : Checks α :=
  x.mapError .error

@[simp] theorem plain_ok (a : α) : plain (.ok a) = .ok a := rfl

/-! ## Agreement -/

/-- A computation with checks that does what one without them does, and comes to no breach.  The
result, if there is one, is as required. -/
structure Agrees (x : Checks α) (y : Except CompileError α) (post : α → Prop) : Prop where
  eq_plain : x = plain y
  post_of_ok : ∀ a, y = .ok a → post a

namespace Agrees

variable {post : α → Prop}

theorem ok {a : α} (h : post a) : Agrees (.ok a) (.ok a) post :=
  ⟨rfl, fun _ ha => Except.ok.inj ha ▸ h⟩

theorem error {e : CompileError} : Agrees (.error (.error e)) (.error e) post :=
  ⟨rfl, nofun⟩

theorem bind {x : Checks α} {y : Except CompileError α} {f : α → Checks β}
    {g : α → Except CompileError β} {result : β → Prop} (hx : Agrees x y post)
    (hf : ∀ a, y = .ok a → post a → Agrees (f a) (g a) result) :
    Agrees (x >>= f) (y >>= g) result := by
  obtain ⟨rfl, hpost⟩ := hx
  cases y with
  | error e => exact .error
  | ok a => exact hf a rfl (hpost a rfl)

theorem plain_bind {y : Except CompileError α} {f : α → Checks β} {g : α → Except CompileError β}
    {result : β → Prop} (hf : ∀ a, y = .ok a → Agrees (f a) (g a) result) :
    Agrees (plain y >>= f) (y >>= g) result := by
  cases y with
  | error e => exact .error
  | ok a => exact hf a rfl

/-- A run through a list keeps what each of its steps keeps. -/
theorem foldlM {f : α → β → Checks α} {g : α → β → Except CompileError α} (items : List β) :
    ∀ {a : α}, post a → (∀ a, post a → ∀ b ∈ items, Agrees (f a b) (g a b) post) →
      Agrees (items.foldlM f a) (items.foldlM g a) post := by
  induction items with
  | nil => exact fun h _ => .ok h
  | cons b rest ih =>
      intro a ha hstep
      rw [List.foldlM_cons, List.foldlM_cons]
      exact (hstep a ha b (List.mem_cons_self ..)).bind fun a' _ ha' =>
        ih ha' fun a ha b hb => hstep a ha b (List.mem_cons_of_mem _ hb)

end Agrees

/-! ## Conditions and differences -/

/-- Looks whether a condition holds. -/
def require (condition : Prop) [Decidable condition] (breach : Breach) : Checks Unit :=
  if condition then .ok () else .error (.breach breach)

theorem require_eq_ok {condition : Prop} [Decidable condition] (h : condition) (breach : Breach) :
    require condition breach = .ok () :=
  if_pos h

/-- A difference that must not be below zero. -/
def difference (whole part : Nat) : Checks Nat := do
  require (part ≤ whole) .negative
  return whole - part

theorem difference_eq_ok {whole part : Nat} (h : part ≤ whole) :
    difference whole part = .ok (whole - part) := by
  rw [difference, require_eq_ok h]
  rfl

/-! ## Alignment and padding -/

/-- The least multiple of a power of two that is at least `value`. -/
def align (value alignment : Nat) : Checks Nat := do
  require (0 < alignment ∧ alignment &&& (alignment - 1) = 0) .unexpected
  let rest ← difference alignment 1
  return (value + rest) / alignment * alignment

/-- The alignments of the format. -/
def alignments : List Nat :=
  [1, 2, 4, 8, 16]

theorem pos_of_mem_alignments {alignment : Nat} (h : alignment ∈ alignments) : 0 < alignment := by
  revert alignment
  decide

theorem align_eq_ok (value : Nat) {alignment : Nat} (h : alignment ∈ alignments) :
    align value alignment = .ok (Bytes.align value alignment) := by
  have hpower : 0 < alignment ∧ alignment &&& (alignment - 1) = 0 := by
    revert alignment
    decide
  rw [align, require_eq_ok hpower, difference_eq_ok hpower.1]
  rfl

/-- Adds zero bytes up to an address that must not lie before the end. -/
def padTo (b : Buffer) (address : Nat) : Checks Buffer := do
  require (b.position ≤ address) .shrunk
  return b.padTo address

theorem padTo_eq_ok {b : Buffer} {address : Nat} (h : b.position ≤ address) :
    padTo b address = .ok (b.padTo address) := by
  rw [padTo, require_eq_ok h]
  rfl

/-- Adds zero bytes up to a multiple of a power of two. -/
def alignTo (b : Buffer) (alignment : Nat) : Checks Buffer := do
  padTo b (← align b.position alignment)

theorem alignTo_eq_ok (b : Buffer) {alignment : Nat} (h : alignment ∈ alignments) :
    alignTo b alignment = .ok (b.alignTo alignment) := by
  rw [alignTo, align_eq_ok _ h]
  exact padTo_eq_ok (Bytes.le_align (pos_of_mem_alignments h))

/-- The padding of a section. -/
def sectionPadding (base raw : Nat) : Checks Nat := do
  difference (← align (base + raw) Bytes.sectionAlignment) (base + raw)

theorem sectionPadding_eq_ok (base raw : Nat) :
    sectionPadding base raw = .ok (Bytes.sectionPadding base raw) := by
  rw [sectionPadding, align_eq_ok _ (by decide)]
  exact difference_eq_ok (Bytes.le_align (by decide))

/-! ## Ranges and slots -/

/-- Looks whether a buffer has a range of bytes. -/
def requireRange (b : Buffer) (address count : Nat) : Checks Unit :=
  require (b.start ≤ address ∧ address + count ≤ b.position) .outside

theorem requireRange_eq_ok {b : Buffer} {address count : Nat} (hzero : b.start = 0)
    (h : address + count ≤ b.position) : requireRange b address count = .ok () :=
  require_eq_ok ⟨hzero ▸ Nat.zero_le _, h⟩ _

/-- Appends an element to a chain.  The slot that was emptied last, if there is one, must be there
and hold nothing. -/
def push (c : Chain α) (value : α) : Checks (Key × Chain α) := do
  match c.free with
  | [] => return c.push value
  | slot :: _ =>
      match c.slots[slot]? with
      | none => throw (.breach .outside)
      | some emptied =>
          require (emptied.value.isNone) .unexpected
          return c.push value

theorem push_eq_ok {c : Chain α} (h : c.FreeSlots) (value : α) :
    push c value = .ok (c.push value) := by
  unfold push
  cases hfree : c.free with
  | nil => rfl
  | cons slot rest =>
      obtain ⟨generation, hstamp⟩ := (h.mem_iff slot).mp (by simp [hfree])
      obtain ⟨emptied, hslot, heq⟩ := Option.map_eq_some_iff.mp hstamp
      have hnone : emptied.value.isNone = true := by
        simpa using (Prod.mk.inj heq).2
      simp only [hslot]
      rw [require_eq_ok hnone]
      rfl

end GscAssembler.Checked
