import GscAssembler.Code.Instruction
import GscAssembler.Proofs.Code.GrowingChain

/-!
# Paths through code

A path goes from each instruction to the next one, or from a jump to where it lands.  Instructions on
locals store them or read them, so for each read on a path there is a last store before it.

What is known of the locals at each position is an annotation of the code with facts.  It is enough to
look at single steps to see that an annotation is sound (`Annotates`): whatever path leads to a
position, the facts there hold of it (`Annotates.holds`).  Stores may belong to somebody, and a fact
may name the owner of the last store.
-/

namespace GscAssembler.Code

/-! ## Locals -/

/-- Whether an operation on a local stores something in it.  A reference to a local counts, since what
is done with it is to assign. -/
def Opcode.assigns : Opcode → Bool
  | .evalLocalVariableRefCached | .setLocalVariableCached | .setNextArrayKeyCached
  | .setWaittillVariableFieldCached => true
  | _ => false

namespace Instruction

/-- The local that an instruction is about. -/
def named? : Instruction → Option UInt32
  | localVariable _ x => some x
  | _ => none

/-- The local that an instruction stores something in. -/
def stores? : Instruction → Option UInt32
  | localVariable code x => if code.assigns then some x else none
  | _ => none

/-- The local that an instruction reads. -/
def reads? : Instruction → Option UInt32
  | localVariable code x => if code.assigns then none else some x
  | _ => none

theorem named?_of_stores? {i : Instruction} {x : UInt32} (h : i.stores? = some x) :
    i.named? = some x := by
  cases i <;> simp_all [stores?, named?]

theorem named?_of_reads? {i : Instruction} {x : UInt32} (h : i.reads? = some x) :
    i.named? = some x := by
  cases i <;> simp_all [reads?, named?]

theorem stores?_of_named? {i : Instruction} (h : i.named? = none) : i.stores? = none := by
  cases i <;> simp_all [stores?, named?]

@[simp] theorem stores?_retarget (k : Key) (i : Instruction) : (i.retarget k).stores? = i.stores? := by
  cases i <;> rfl

end Instruction

/-- An instruction of code in which a jump was given another target is as it was, or that jump. -/
theorem getElem?_retarget {code : List Instruction} {p r : Nat} {k : Key} {i : Instruction}
    (h : (code.modify p (Instruction.retarget k))[r]? = some i) :
    code[r]? = some i ∨ ∃ j, code[r]? = some j ∧ i = j.retarget k ∧ p = r := by
  rw [List.getElem?_modify] at h
  by_cases hr : p = r
  · obtain ⟨j, hj, rfl⟩ := Option.map_eq_some_iff.mp h
    exact .inr ⟨j, hj, by simp [hr], hr⟩
  · left
    simpa [hr] using h

/-! ## Paths -/

namespace Chain

/-- Whether an instruction may come directly after another in a run of the code: it is the next one, or
the other is a jump that lands on it.  Jumps that are always taken are no exception, and so there are
more paths than runs. -/
inductive Leads (c : Chain Instruction) (k : Key) : Key → Prop where
  /-- To the next instruction. -/
  | next {k' : Key} (h : c.next? k = some k') : Leads c k k'
  /-- To where a jump lands. -/
  | jump {code : Opcode} {after k' : Key} (hjump : c.get? k = some (.jump code (some after)))
      (h : c.next? after = some k') : Leads c k k'

/-- A path from the first instruction to another, by the instructions on the way, the latest first. -/
inductive Path (c : Chain Instruction) : List Key → Key → Prop where
  /-- The path to the first instruction. -/
  | start {k : Key} (h : c.first = some k) : Path c [] k
  /-- One step further. -/
  | step {past : List Key} {k k' : Key} (h : Path c past k) (hleads : c.Leads k k') :
      Path c (k :: past) k'

/-- The last instruction on the way that stored something in a local. -/
def lastStore? (c : Chain Instruction) (past : List Key) (x : UInt32) : Option Key :=
  past.find? fun k => (c.get? k).bind Instruction.stores? = some x

theorem stores?_of_lastStore? {c : Chain Instruction} {past : List Key} {x : UInt32} {k : Key}
    (h : c.lastStore? past x = some k) : ∃ i, c.get? k = some i ∧ i.stores? = some x := by
  have hstores := List.find?_some h
  rw [decide_eq_true_eq] at hstores
  exact Option.bind_eq_some_iff.mp hstores

end Chain

/-! ## Facts -/

/-- Something that is known at a position of the code, whatever path leads there. -/
inductive Fact (ω : Type) where
  /-- Something was stored in a local. -/
  | stored (x : UInt32)
  /-- The last to store something in a local was its owner. -/
  | storedBy (x : UInt32) (owner : ω)

variable {ω : Type} {code : List Instruction} {owner : Nat → Option ω} {facts : Nat → Set (Fact ω)}

/-- What is known behind an instruction. -/
def Fact.after (i : Instruction) (owner : Option ω) (before : Set (Fact ω)) : Set (Fact ω) :=
  match i.stores? with
  | none => before
  | some x => {fact | fact ∈ before ∧ (∀ o, fact ≠ .storedBy x o) ∨ fact = .stored x ∨
      ∃ o, owner = some o ∧ fact = .storedBy x o}

theorem Fact.after_of_stores? {i : Instruction} {owner : Option ω} {before : Set (Fact ω)}
    (h : i.stores? = none) : Fact.after i owner before = before := by
  rw [after, h]

/-- What it takes for a fact to hold of a path. -/
def Fact.Holds (code : List Instruction) (owner : Nat → Option ω) (past : List Key) : Fact ω → Prop
  | .stored x => ((Chain.ofList code).lastStore? past x).isSome
  | .storedBy x o => ∃ k, (Chain.ofList code).lastStore? past x = some k ∧ owner k.slot = some o

/-- Whether facts at the positions of the code, and at its end, are such that each step of a path
keeps them. -/
structure Annotates (code : List Instruction) (owner : Nat → Option ω)
    (facts : Nat → Set (Fact ω)) : Prop where
  /-- Nothing is known at first. -/
  start : facts 0 = ∅
  /-- What is known at a position is known behind the one before it. -/
  next : ∀ p i, code[p]? = some i → facts (p + 1) ⊆ Fact.after i (owner p) (facts p)
  /-- What is known where a jump lands is known at the jump. -/
  jump : ∀ p op k, code[p]? = some (.jump op (some k)) →
    ∃ q < code.length, k = .at q ∧ facts (q + 1) ⊆ facts p

/-- One more instruction on the way keeps the facts behind it. -/
theorem Fact.holds_of_after {i : Instruction} {p : Nat} {past : List Key}
    (hi : code[p]? = some i) (hbefore : ∀ fact ∈ facts p, fact.Holds code owner past) :
    ∀ fact ∈ Fact.after i (owner p) (facts p), fact.Holds code owner (.at p :: past) := by
  intro fact hfact
  have hlast (x : UInt32) : (Chain.ofList code).lastStore? (.at p :: past) x =
      if i.stores? = some x then some (.at p) else (Chain.ofList code).lastStore? past x := by
    unfold Chain.lastStore?
    rw [List.find?_cons, Chain.get?_ofList, hi, Option.bind_some]
    by_cases h : i.stores? = some x <;> simp [h]
  unfold Fact.after at hfact
  split at hfact
  case h_1 hnone =>
      have hkept := hbefore fact hfact
      cases fact <;> simpa [Fact.Holds, hlast, hnone] using hkept
  case h_2 x hsome =>
      rcases hfact with ⟨hfact, hother⟩ | rfl | ⟨o, ho, rfl⟩
      · have hkept := hbefore fact hfact
        cases fact with
        | stored y =>
            by_cases h : x = y
            · simp [Fact.Holds, hlast, hsome, h]
            · simpa [Fact.Holds, hlast, hsome, h] using hkept
        | storedBy y o =>
            have h : x ≠ y := fun h => hother o (by rw [h])
            simpa [Fact.Holds, hlast, hsome, h] using hkept
      · simp [Fact.Holds, hlast, hsome]
      · exact ⟨.at p, by simp [hlast, hsome], ho⟩

/-- The facts at a position hold of every path to it. -/
theorem Annotates.holds (h : Annotates code owner facts) {past : List Key} {k : Key}
    (hpath : (Chain.ofList code).Path past k) :
    ∃ p < code.length, k = .at p ∧ ∀ fact ∈ facts p, fact.Holds code owner past := by
  have hinside {q : Nat} {k' : Key} (hnext : (Chain.ofList code).next? (.at q) = some k') :
      q + 1 < code.length ∧ k' = .at (q + 1) := by
    rw [Chain.next?_ofList] at hnext
    split at hnext
    · exact ⟨‹_›, (Option.some.inj hnext).symm⟩
    · cases hnext
  induction hpath with
  | start hfirst =>
      by_cases hcode : code = []
      · simp [Chain.ofList, hcode] at hfirst
      · refine ⟨0, List.length_pos_iff.mpr hcode, ?_, by simp [h.start]⟩
        simpa [Chain.ofList, hcode] using hfirst.symm
  | @step past _ _ _ hleads ih =>
      obtain ⟨p, hp, rfl, hfacts⟩ := ih
      have hi : code[p]? = some code[p] := List.getElem?_eq_getElem hp
      have hbehind : ∀ fact ∈ Fact.after code[p] (owner p) (facts p),
          fact.Holds code owner (.at p :: past) := Fact.holds_of_after hi hfacts
      cases hleads with
      | next hnext =>
          obtain ⟨hlt, rfl⟩ := hinside hnext
          exact ⟨p + 1, hlt, rfl, fun fact hfact => hbehind fact (h.next p _ hi hfact)⟩
      | jump hjump hnext =>
          rw [Chain.get?_ofList] at hjump
          obtain ⟨q, -, rfl, hsub⟩ := h.jump p _ _ hjump
          obtain ⟨hlt, rfl⟩ := hinside hnext
          -- a jump stores nothing, so what is known at it is known behind it
          have hafter : Fact.after code[p] (owner p) (facts p) = facts p := by
            rw [hi] at hjump
            rw [Option.some.inj hjump]
            rfl
          rw [hafter] at hbehind
          exact ⟨q + 1, hlt, rfl, fun fact hfact => hbehind fact (hsub hfact)⟩

/-! ## Annotations of growing code -/

namespace Annotates

/-- Whether an instruction is no jump that has a target. -/
def Untargeted (i : Instruction) : Prop :=
  ∀ op k, i ≠ .jump op (some k)

/-- Behind a new instruction all is known that can be. -/
theorem append (h : Annotates code owner facts) {i : Instruction} (hi : Untargeted i) :
    Annotates (code ++ [i]) owner (Function.update facts (code.length + 1)
      (Fact.after i (owner code.length) (facts code.length))) := by
  have hold {p : Nat} (hp : p ≤ code.length) (F : Set (Fact ω)) :
      Function.update facts (code.length + 1) F p = facts p := by
    rw [Function.update_of_ne]
    omega
  constructor
  · rw [hold (Nat.zero_le _)]
    exact h.start
  · intro p j hj
    rcases Nat.lt_trichotomy p code.length with hlt | rfl | hgt
    · rw [List.getElem?_append_left hlt] at hj
      rw [hold (by omega), hold (by omega)]
      exact h.next p j hj
    · rw [List.getElem?_concat_length] at hj
      cases hj
      rw [Function.update_self, hold le_rfl]
    · rw [List.getElem?_eq_none (by simp; omega)] at hj
      cases hj
  · intro p op k hj
    have hlt : p < code.length := by
      by_contra hge
      rcases Nat.eq_or_lt_of_le (Nat.le_of_not_lt hge) with rfl | hgt
      · rw [List.getElem?_concat_length] at hj
        exact hi op k (Option.some.inj hj)
      · rw [List.getElem?_eq_none (by simp; omega)] at hj
        cases hj
    rw [List.getElem?_append_left hlt] at hj
    obtain ⟨q, hq, rfl, hsub⟩ := h.jump p op k hj
    refine ⟨q, by simp; omega, rfl, ?_⟩
    rw [hold (by omega), hold (by omega)]
    exact hsub

/-- What is known at the end may be forgotten. -/
theorem forget (h : Annotates code owner facts) (hcode : 0 < code.length) {F : Set (Fact ω)}
    (hF : F ⊆ facts code.length) : Annotates code owner (Function.update facts code.length F) := by
  have hold {p : Nat} (hp : p < code.length) : Function.update facts code.length F p = facts p := by
    rw [Function.update_of_ne]
    omega
  have hsub (p : Nat) : Function.update facts code.length F p ⊆ facts p := by
    by_cases hp : p = code.length
    · subst hp
      rw [Function.update_self]
      exact hF
    · rw [Function.update_of_ne hp]
  constructor
  · rw [hold hcode]
    exact h.start
  · intro p i hi
    have hp : p < code.length := (List.getElem?_eq_some_iff.mp hi).1
    rw [hold hp]
    exact (hsub (p + 1)).trans (h.next p i hi)
  · intro p op k hi
    have hp : p < code.length := (List.getElem?_eq_some_iff.mp hi).1
    obtain ⟨q, hq, rfl, hjump⟩ := h.jump p op k hi
    rw [hold hp]
    exact ⟨q, hq, rfl, (hsub (q + 1)).trans hjump⟩

/-- A jump may land wherever nothing is known that is not known at the jump. -/
theorem retarget (h : Annotates code owner facts) {p q : Nat} (hq : q < code.length)
    (hsub : facts (q + 1) ⊆ facts p) :
    Annotates (code.modify p (Instruction.retarget (.at q))) owner facts := by
  constructor
  · exact h.start
  · intro r i hi
    rcases getElem?_retarget hi with hi | ⟨j, hj, rfl, -⟩
    · exact h.next r i hi
    · rw [Fact.after, Instruction.stores?_retarget]
      exact h.next r j hj
  · intro r op k hi
    rw [List.length_modify]
    rcases getElem?_retarget hi with hi | ⟨j, hj, hretarget, rfl⟩
    · exact h.jump r op k hi
    · cases j with
      | jump op' old =>
          cases hretarget
          exact ⟨q, hq, rfl, hsub⟩
      | _ => cases hretarget

theorem congr_owner (h : Annotates code owner facts) {owner' : Nat → Option ω}
    (howner : ∀ p < code.length, owner' p = owner p) : Annotates code owner' facts := by
  refine ⟨h.start, fun p i hi => ?_, h.jump⟩
  rw [howner p (List.getElem?_eq_some_iff.mp hi).1]
  exact h.next p i hi

end Annotates

end GscAssembler.Code
