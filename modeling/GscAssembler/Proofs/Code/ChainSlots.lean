import GscAssembler.Proofs.Code.GrowingChain

/-!
# The slots of a chain

Each operation of a chain changes a few slots.  This module says which, for any chain: the slot that
a key has afterwards (`slot?_link`, `slot?_allocate`, `slot?_clear`), and the generation of each slot
and whether it is in use (`stamp?`).

What a list asks of the slots is told by `slotIn`: the slot of each of its keys, with the neighbours
that the key has in the list.  Putting elements into a gap of a list, or taking one out, asks for
exactly the changes that the operations make (`slotIn_splice`, `slotIn_erase`).
-/

namespace GscAssembler.Code

variable {α : Type}

namespace Chain

/-! ## What the operations do to the slots -/

/-- The generation of a slot, and whether it is in use. -/
def stamp? (c : Chain α) (position : Nat) : Option (Nat × Bool) :=
  c.slots[position]?.map fun slot => (slot.generation, slot.value.isSome)

theorem slot?_eq_some {c : Chain α} {key : Key} {slot : Slot α} :
    c.slot? key = some slot ↔
      c.slots[key.slot]? = some slot ∧ slot.generation = key.generation ∧ slot.value.isSome := by
  simp only [slot?, Option.filter_eq_some_iff, Bool.and_eq_true, beq_iff_eq]

theorem slot?_congr {c c' : Chain α} {key : Key} (h : c.slots[key.slot]? = c'.slots[key.slot]?) :
    c.slot? key = c'.slot? key := by
  rw [slot?, slot?, h]

theorem isSome_slot? {c : Chain α} {key : Key} :
    (c.slot? key).isSome = true ↔ c.stamp? key.slot = some (key.generation, true) := by
  rw [Option.isSome_iff_exists, stamp?, Option.map_eq_some_iff]
  simp only [slot?_eq_some, Prod.mk.injEq]

theorem slot?_of_not_live {c : Chain α} {key : Key} (h : c.isLive key = false) :
    c.slot? key = none := by
  simpa [isLive] using h

/-- Changes of a slot that keep its generation and whether it is in use. -/
def Mild (f : Slot α → Slot α) : Prop :=
  ∀ slot, (f slot).generation = slot.generation ∧ (f slot).value.isSome = slot.value.isSome

theorem mild_next (next : Option Key) : Mild fun slot : Slot α => { slot with next := next } :=
  fun _ => ⟨rfl, rfl⟩

theorem mild_prev (prev : Option Key) : Mild fun slot : Slot α => { slot with prev := prev } :=
  fun _ => ⟨rfl, rfl⟩

theorem mild_value (f : α → α) :
    Mild fun slot : Slot α => { slot with value := slot.value.map f } :=
  fun _ => ⟨rfl, by simp⟩

section Slots

variable {c : Chain α} {f : Slot α → Slot α}

theorem slots_modifySlot (c : Chain α) (key : Key) (f : Slot α → Slot α) (position : Nat) :
    (c.modifySlot key f).slots[position]? =
      if c.isLive key ∧ position = key.slot then c.slots[position]?.map f
      else c.slots[position]? := by
  unfold modifySlot
  split
  · rename_i hlive
    rw [Array.getElem?_modify]
    by_cases hposition : position = key.slot
    · simp [hlive, hposition]
    · simp [hlive, hposition, Ne.symm hposition]
  · rename_i hlive
    simp [hlive]

theorem stamp?_modifySlot (hf : Mild f) (key : Key) (position : Nat) :
    (c.modifySlot key f).stamp? position = c.stamp? position := by
  rw [stamp?, stamp?, slots_modifySlot]
  split
  · rw [Option.map_map]
    congr 1
    funext slot
    simp [Function.comp, hf slot]
  · rfl

theorem slot?_modifySlot (hf : Mild f) (key other : Key) :
    (c.modifySlot key f).slot? other =
      if other = key then (c.slot? other).map f else c.slot? other := by
  by_cases hlive : c.isLive key = true
  · obtain ⟨slot, hslot⟩ := Option.isSome_iff_exists.mp hlive
    obtain ⟨hget, hgeneration, hvalue⟩ := slot?_eq_some.mp hslot
    by_cases hposition : other.slot = key.slot
    · have hget' : (c.modifySlot key f).slots[other.slot]? = some (f slot) := by
        rw [slots_modifySlot, if_pos ⟨hlive, hposition⟩, hposition, hget]
        rfl
      by_cases hother : other = key
      · subst hother
        rw [if_pos rfl, hslot]
        exact slot?_eq_some.mpr ⟨hget', (hf slot).1.trans hgeneration, (hf slot).2 ▸ hvalue⟩
      · -- another generation of the same slot: neither key is there before or after
        have hne : slot.generation ≠ other.generation := by
          intro heq
          exact hother (by cases other; cases key; simp_all)
        have hbefore : c.slot? other = none := by
          simp [slot?, hposition, hget, hne]
        rw [if_neg hother, hbefore]
        simp [slot?, hget', (hf slot).1, hne]
    · have hother : other ≠ key := by
        rintro rfl
        exact hposition rfl
      rw [if_neg hother]
      exact slot?_congr (by rw [slots_modifySlot, if_neg (by simp [hposition])])
  · have hsame : c.modifySlot key f = c := if_neg hlive
    rw [hsame]
    split
    · rename_i hother
      rw [hother, slot?_of_not_live (by simpa using hlive)]
      rfl
    · rfl

end Slots

/-- What giving the element before a gap another successor, and the one behind it another
predecessor, makes of the slot of a key. -/
def rewire (before after toNext toPrev : Option Key) (key : Key) (slot : Slot α) : Slot α :=
  { slot with
    prev := if after = some key then toPrev else slot.prev
    next := if before = some key then toNext else slot.next }

section Links

variable (c : Chain α) (before after toNext toPrev : Option Key)

theorem slot?_link (key : Key) :
    ((c.linkNext before toNext).linkPrev after toPrev).slot? key =
      (c.slot? key).map (rewire before after toNext toPrev key) := by
  have hnext : ∀ c : Chain α, (c.linkNext before toNext).slot? key =
      (c.slot? key).map fun slot =>
        { slot with next := if before = some key then toNext else slot.next } := by
    intro c
    cases before with
    | none => simp [linkNext, slot?]
    | some before =>
        rw [linkNext, slot?_modifySlot (mild_next toNext)]
        by_cases hkey : key = before
        · simp [hkey]
        · simp [hkey, Ne.symm hkey]
  have hprev : ∀ c : Chain α, (c.linkPrev after toPrev).slot? key =
      (c.slot? key).map fun slot =>
        { slot with prev := if after = some key then toPrev else slot.prev } := by
    intro c
    cases after with
    | none => simp [linkPrev, slot?]
    | some after =>
        rw [linkPrev, slot?_modifySlot (mild_prev toPrev)]
        by_cases hkey : key = after
        · simp [hkey]
        · simp [hkey, Ne.symm hkey]
  rw [hprev, hnext, Option.map_map]
  rfl

theorem stamp?_link (position : Nat) :
    ((c.linkNext before toNext).linkPrev after toPrev).stamp? position = c.stamp? position := by
  have hnext : ∀ c : Chain α, (c.linkNext before toNext).stamp? position = c.stamp? position := by
    intro c
    cases before with
    | none => rfl
    | some before => exact stamp?_modifySlot (mild_next toNext) _ _
  have hprev : ∀ c : Chain α, (c.linkPrev after toPrev).stamp? position = c.stamp? position := by
    intro c
    cases after with
    | none => rfl
    | some after => exact stamp?_modifySlot (mild_prev toPrev) _ _
  rw [hprev, hnext]

theorem modifySlot_ends (key : Key) (f : Slot α → Slot α) :
    (c.modifySlot key f).first = c.first ∧ (c.modifySlot key f).last = c.last ∧
      (c.modifySlot key f).size = c.size ∧ (c.modifySlot key f).free = c.free := by
  unfold modifySlot
  split <;> exact ⟨rfl, rfl, rfl, rfl⟩

theorem link_ends :
    let c' := (c.linkNext before toNext).linkPrev after toPrev
    c'.first = (if before = none then toNext else c.first) ∧
      c'.last = (if after = none then toPrev else c.last) ∧ c'.size = c.size ∧ c'.free = c.free := by
  cases before <;> cases after <;> simp [linkNext, linkPrev, modifySlot_ends]

end Links

/-! ## Slots for new elements -/

/-- Whether the free slots are the ones that are not in use. -/
structure FreeSlots (c : Chain α) : Prop where
  nodup : c.free.Nodup
  mem_iff : ∀ position, position ∈ c.free ↔ ∃ generation, c.stamp? position = some (generation, false)

section Allocation

variable {c : Chain α} (h : c.FreeSlots) (value : α) (prev next : Option Key)

theorem stamp?_of_size_le {position : Nat} (hposition : c.slots.size ≤ position) :
    c.stamp? position = none := by
  simp [stamp?, hposition]

include h in
/-- The key of a new element: its slot is not in use, and its generation is that of the slot. -/
theorem stamp?_allocate_key :
    c.stamp? (c.allocate value prev next).1.slot = none ∨
      c.stamp? (c.allocate value prev next).1.slot =
        some ((c.allocate value prev next).1.generation, false) := by
  unfold allocate
  cases hfree : c.free with
  | nil => exact .inl (stamp?_of_size_le (Nat.le_refl _))
  | cons position rest =>
      obtain ⟨generation, hstamp⟩ := (h.mem_iff position).mp (by simp [hfree])
      obtain ⟨slot, hslot, heq⟩ := Option.map_eq_some_iff.mp hstamp
      obtain ⟨rfl, -⟩ := Prod.mk.inj heq
      exact .inr (by simpa [hslot] using hstamp)

include h in
theorem slots_allocate (position : Nat) :
    (c.allocate value prev next).2.slots[position]? =
      if position = (c.allocate value prev next).1.slot then
        some ⟨some value, (c.allocate value prev next).1.generation, prev, next⟩
      else c.slots[position]? := by
  unfold allocate
  cases hfree : c.free with
  | nil =>
      simp only [Array.getElem?_push]
  | cons first rest =>
      obtain ⟨generation, hstamp⟩ := (h.mem_iff first).mp (by simp [hfree])
      obtain ⟨slot, hslot, -⟩ := Option.map_eq_some_iff.mp hstamp
      have hlt : first < c.slots.size := (Array.getElem?_eq_some_iff.mp hslot).1
      simp only [Array.getElem?_setIfInBounds, eq_comm (a := position)]
      split
      · rename_i heq
        simp [hlt]
      · rfl

include h in
theorem stamp?_allocate (position : Nat) :
    (c.allocate value prev next).2.stamp? position =
      if position = (c.allocate value prev next).1.slot then
        some ((c.allocate value prev next).1.generation, true)
      else c.stamp? position := by
  rw [stamp?, slots_allocate h]
  split
  · rfl
  · rfl

include h in
theorem slot?_allocate (key : Key) :
    (c.allocate value prev next).2.slot? key =
      if key = (c.allocate value prev next).1 then some ⟨some value, key.generation, prev, next⟩
      else c.slot? key := by
  have hslots := slots_allocate h value prev next key.slot
  have hfresh := stamp?_allocate_key h value prev next
  generalize c.allocate value prev next = r at *
  by_cases hposition : key.slot = r.1.slot
  · rw [if_pos hposition] at hslots
    by_cases hkey : key = r.1
    · rw [if_pos hkey]
      exact slot?_eq_some.mpr ⟨hkey ▸ hslots, rfl, rfl⟩
    · -- an earlier key of the slot was gone before and is gone now
      have hne : r.1.generation ≠ key.generation := by
        intro heq
        apply hkey
        cases key
        cases hr : r.1
        simp_all
      have hbefore : c.slot? key = none := by
        rw [← Option.not_isSome_iff_eq_none, isSome_slot?, hposition]
        rcases hfresh with hfresh | hfresh <;> simp [hfresh]
      rw [if_neg hkey, hbefore]
      simp [slot?, hslots, hne]
  · rw [if_neg hposition] at hslots
    have hkey : key ≠ r.1 := fun heq => hposition (heq ▸ rfl)
    rw [if_neg hkey]
    exact slot?_congr hslots

theorem allocate_ends :
    (c.allocate value prev next).2.first = c.first ∧ (c.allocate value prev next).2.last = c.last ∧
      (c.allocate value prev next).2.size = c.size + 1 ∧
      (c.allocate value prev next).2.free = c.free.tail ∧
      (c.allocate value prev next).1.slot = c.free.headD c.slots.size := by
  unfold allocate
  cases c.free <;> exact ⟨rfl, rfl, rfl, rfl, rfl⟩

include h in
theorem FreeSlots.allocate : (c.allocate value prev next).2.FreeSlots := by
  obtain ⟨-, -, -, hfree, hslot⟩ := c.allocate_ends value prev next
  refine ⟨hfree ▸ h.nodup.tail, fun position => ?_⟩
  rw [hfree, stamp?_allocate h, hslot]
  have hmem := h.mem_iff position
  have hnodup := h.nodup
  cases hc : c.free with
  | nil =>
      rw [hc] at hmem
      split <;> simp_all
  | cons first rest =>
      rw [hc] at hmem hnodup
      have hfirst : first ∉ rest := (List.nodup_cons.mp hnodup).1
      by_cases hposition : position = first
      · simp [hposition, hfirst]
      · simpa [hposition] using hmem

end Allocation

/-! ## Slots of removed elements -/

/-- Empties the slot of a key. -/
def clear (c : Chain α) (key : Key) : Chain α :=
  { c with
    slots := c.slots.modify key.slot fun slot => ⟨none, slot.generation + 1, none, none⟩
    free := key.slot :: c.free
    size := c.size - 1 }

section Clearing

variable {c : Chain α} {key : Key} (hlive : (c.slot? key).isSome = true)

include hlive in
theorem stamp?_clear (position : Nat) :
    (c.clear key).stamp? position =
      if position = key.slot then some (key.generation + 1, false) else c.stamp? position := by
  obtain ⟨slot, hsome⟩ := Option.isSome_iff_exists.mp hlive
  obtain ⟨hslot, hgeneration, -⟩ := slot?_eq_some.mp hsome
  rw [stamp?, clear, Array.getElem?_modify]
  by_cases hposition : position = key.slot
  · simp [hposition, hslot, hgeneration]
  · simp [hposition, Ne.symm hposition, stamp?]

include hlive in
theorem slot?_clear (other : Key) :
    (c.clear key).slot? other = if other = key then none else c.slot? other := by
  by_cases hposition : other.slot = key.slot
  · have hgone : (c.clear key).slot? other = none := by
      rw [← Option.not_isSome_iff_eq_none, isSome_slot?, stamp?_clear hlive, if_pos hposition]
      simp
    rw [hgone]
    split
    · rfl
    · rename_i hother
      symm
      rw [← Option.not_isSome_iff_eq_none, isSome_slot?, hposition, isSome_slot?.mp hlive]
      intro heq
      apply hother
      cases other
      cases key
      simp_all
  · have hother : other ≠ key := fun heq => hposition (heq ▸ rfl)
    rw [if_neg hother]
    apply slot?_congr
    rw [clear, Array.getElem?_modify, if_neg (Ne.symm hposition)]

include hlive in
theorem FreeSlots.clear (h : c.FreeSlots) : (c.clear key).FreeSlots := by
  have hstamp := isSome_slot?.mp hlive
  have hused : key.slot ∉ c.free := by
    rw [h.mem_iff]
    simp [hstamp]
  refine ⟨List.nodup_cons.mpr ⟨hused, h.nodup⟩, fun position => ?_⟩
  rw [stamp?_clear hlive]
  have hmem := h.mem_iff position
  by_cases hposition : position = key.slot
  · simp [Chain.clear, hposition]
  · simpa [Chain.clear, hposition] using hmem

end Clearing

theorem FreeSlots.of_stamp?_eq {c c' : Chain α} (h : c.FreeSlots) (hfree : c'.free = c.free)
    (hstamp : ∀ position, c'.stamp? position = c.stamp? position) : c'.FreeSlots :=
  ⟨hfree ▸ h.nodup, fun position => by rw [hfree, hstamp, h.mem_iff]⟩

theorem freeSlots_empty : (empty : Chain α).FreeSlots :=
  ⟨List.nodup_nil, fun position => by simp [empty, stamp?]⟩

theorem FreeSlots.modifySlot {c : Chain α} (h : c.FreeSlots) {f : Slot α → Slot α} (hf : Mild f)
    (key : Key) : (c.modifySlot key f).FreeSlots :=
  h.of_stamp?_eq (c.modifySlot_ends key f).2.2.2 fun _ => stamp?_modifySlot hf _ _

theorem FreeSlots.modify {c : Chain α} (h : c.FreeSlots) (key : Key) (f : α → α) :
    (c.modify key f).FreeSlots :=
  h.modifySlot (mild_value f) key

theorem FreeSlots.linkNext {c : Chain α} (h : c.FreeSlots) (key next : Option Key) :
    (c.linkNext key next).FreeSlots := by
  cases key with
  | none => exact ⟨h.nodup, h.mem_iff⟩
  | some key => exact h.modifySlot (mild_next next) key

theorem FreeSlots.push {c : Chain α} (h : c.FreeSlots) (value : α) :
    (c.push value).2.FreeSlots := by
  have hlinked (next : Option Key) := (h.allocate value c.last none).linkNext c.last next
  exact ⟨(hlinked _).nodup, (hlinked _).mem_iff⟩

/-! ## The slots that a list asks for -/

/-- The slot that a key has in a list of elements, if the first of them comes after `prev`. -/
def slotIn : (prev : Option Key) → List (Key × α) → Key → Option (Slot α)
  | _, [], _ => none
  | prev, item :: rest, key =>
      if key = item.1 then some ⟨some item.2, key.generation, prev, rest.head?.map (·.1)⟩
      else slotIn (some item.1) rest key

/-- The last key of a list, or what comes before the list. -/
def lastKeyOf (prev : Option Key) (items : List (Key × α)) : Option Key :=
  (items.getLast?.map (·.1)).or prev

theorem lastKeyOf_cons (prev : Option Key) (item : Key × α) (items : List (Key × α)) :
    lastKeyOf prev (item :: items) = lastKeyOf (some item.1) items := by
  cases items with
  | nil => rfl
  | cons first rest => simp [lastKeyOf, List.getLast?_cons]

theorem isSome_slotIn {prev : Option Key} {items : List (Key × α)} {key : Key} :
    (slotIn prev items key).isSome = true ↔ key ∈ items.map (·.1) := by
  induction items generalizing prev with
  | nil => simp [slotIn]
  | cons item rest ih =>
      rw [slotIn, List.map_cons, List.mem_cons]
      split
      · simp [*]
      · rename_i hkey
        rw [ih]
        simp [hkey]

/-- Neighbours that are not in the list may be exchanged. -/
theorem map_rewire_slotIn {prev before after toNext toPrev : Option Key} {items : List (Key × α)}
    (hbefore : ∀ key ∈ items.map (·.1), before ≠ some key)
    (hafter : ∀ key ∈ items.map (·.1), after ≠ some key) (key : Key) :
    (slotIn prev items key).map (rewire before after toNext toPrev key) = slotIn prev items key := by
  cases hslot : slotIn prev items key with
  | none => rfl
  | some slot =>
      have hmem : key ∈ items.map (·.1) := isSome_slotIn.mp (by rw [hslot]; rfl)
      simp [rewire, hbefore key hmem, hafter key hmem]

theorem lastKeyOf_mem {prev : Option Key} {items : List (Key × α)} {key : Key}
    (h : lastKeyOf prev items = some key) : key ∈ items.map (·.1) ∨ prev = some key := by
  cases hlast : items.getLast? with
  | none => exact .inr (by simpa [lastKeyOf, hlast] using h)
  | some item =>
      left
      rw [lastKeyOf, hlast] at h
      cases h
      exact List.mem_map_of_mem (List.mem_of_getLast? hlast)

@[simp] theorem rewire_rewire (before after toNext toPrev toNext' toPrev' : Option Key) (key : Key)
    (slot : Slot α) : rewire before after toNext toPrev key
      (rewire before after toNext' toPrev' key slot) =
        rewire before after toNext toPrev key slot := by
  simp only [rewire]
  congr 1 <;> split <;> rfl

section Gaps

variable {before middle after : List (Key × α)} {key : Key}

theorem notMem_of_nodup {item : Key × α} {items : List (Key × α)}
    (h : ((item :: items).map (·.1)).Nodup) :
    ∀ other ∈ items.map (·.1), some item.1 ≠ some other := by
  rintro other hother heq
  have hne : item.1 ∉ items.map (·.1) := (List.nodup_cons.mp h).1
  rw [Option.some.inj heq] at hne
  exact hne hother

/-- If elements are put into a gap, the elements on both sides of it get other neighbours. -/
theorem slotIn_splice {prev : Option Key} (hnodup : ((before ++ after).map (·.1)).Nodup)
    (hkey : key ∉ middle.map (·.1))
    (hprev : ∀ other ∈ (before ++ after).map (·.1), prev ≠ some other) :
    slotIn prev (before ++ (middle ++ after)) key =
      (slotIn prev (before ++ after) key).map (rewire (lastKeyOf prev before)
        (after.head?.map (·.1)) ((middle ++ after).head?.map (·.1))
        (lastKeyOf (lastKeyOf prev before) middle) key) := by
  induction before generalizing prev with
  | nil =>
      -- the keys in the gap are passed over, and the first one behind it gets another predecessor
      have hmiddle : slotIn prev (middle ++ after) key = slotIn (lastKeyOf prev middle) after key := by
        clear hprev
        induction middle generalizing prev with
        | nil => rfl
        | cons item middle ih =>
            simp only [List.map_cons, List.mem_cons, not_or] at hkey
            rw [List.cons_append, slotIn, if_neg hkey.1, ih hkey.2, lastKeyOf_cons]
      rw [List.nil_append, List.nil_append, hmiddle]
      cases after with
      | nil => rfl
      | cons item after =>
          have hitem := notMem_of_nodup hnodup
          have hother : ∀ other ∈ after.map (·.1), prev ≠ some other :=
            fun other hother => hprev other (List.mem_cons_of_mem _ hother)
          rw [slotIn, slotIn]
          split
          · rename_i hkey
            have hprev' : prev ≠ some key := hprev key (by simp [hkey])
            simp [rewire, lastKeyOf, hprev', ← hkey]
          · exact (map_rewire_slotIn hother hitem key).symm
  | cons item before ih =>
      have hitem : ∀ other ∈ (before ++ after).map (·.1), some item.1 ≠ some other :=
        notMem_of_nodup hnodup
      have hrest : ((before ++ after).map (·.1)).Nodup := (List.nodup_cons.mp hnodup).2
      simp only [List.cons_append, slotIn, lastKeyOf_cons]
      rw [ih hrest hitem]
      split
      · -- the element before the gap, if this is the last one, gets another successor
        rename_i hkey
        have hafter : after.head?.map (·.1) ≠ some key := by
          intro heq
          obtain ⟨first, hfirst, heq⟩ := Option.map_eq_some_iff.mp heq
          refine hitem first.1 ?_ (by rw [heq, hkey])
          rw [List.map_append, List.mem_append]
          exact .inr (List.mem_map_of_mem (List.mem_of_head? hfirst))
        rw [Option.map_some, rewire, if_neg hafter]
        cases before with
        | nil => simp [lastKeyOf, hkey]
        | cons first before =>
            have hlast : lastKeyOf (some item.1) (first :: before) ≠ some key := by
              rw [lastKeyOf_cons, hkey]
              intro heq
              refine hitem item.1 ?_ rfl
              rcases lastKeyOf_mem heq with hmem | heq
              · simp [hmem]
              · simp [Option.some.inj heq]
            simp [hlast]
      · rfl

/-- The slot of an element between others. -/
theorem slotIn_self {prev : Option Key} (value : α) (hkey : key ∉ before.map (·.1)) :
    slotIn prev (before ++ (key, value) :: after) key =
      some ⟨some value, key.generation, lastKeyOf prev before, after.head?.map (·.1)⟩ := by
  induction before generalizing prev with
  | nil => simp [slotIn, lastKeyOf]
  | cons item before ih =>
      simp only [List.map_cons, List.mem_cons, not_or] at hkey
      rw [List.cons_append, slotIn, if_neg hkey.1, ih hkey.2, lastKeyOf_cons]

/-- The slots of a list without one of its elements. -/
theorem slotIn_erase {new : Key} {value : α} (hnodup : ((before ++ after).map (·.1)).Nodup)
    (hkey : key ≠ new) :
    slotIn none (before ++ after) key =
      (slotIn none (before ++ (new, value) :: after) key).map (rewire (lastKeyOf none before)
        (after.head?.map (·.1)) (after.head?.map (·.1)) (lastKeyOf none before) key) := by
  have hprev : ∀ other ∈ (before ++ after).map (·.1), (none : Option Key) ≠ some other := by simp
  have hgap : slotIn none (before ++ ([] ++ after)) key = _ :=
    slotIn_splice hnodup List.not_mem_nil hprev
  have hinsert : slotIn none (before ++ ([(new, value)] ++ after)) key = _ :=
    slotIn_splice hnodup (by simpa) hprev
  rw [List.singleton_append] at hinsert
  rw [hinsert, Option.map_map]
  simpa [Function.comp_def, lastKeyOf] using hgap

/-- The slots of a list with a changed element. -/
theorem slotIn_change {prev : Option Key} {changed : Key} {value value' : α}
    (hkey : key ≠ changed) :
    slotIn prev (before ++ (changed, value') :: after) key =
      slotIn prev (before ++ (changed, value) :: after) key := by
  induction before generalizing prev with
  | nil => simp [slotIn, hkey]
  | cons item before ih =>
      simp only [List.cons_append, slotIn, ih]
      cases before <;> rfl

end Gaps

/-! ## What holds of all elements -/

section Elements

variable {c : Chain α} {holds : α → Prop}

/-- Whether something holds of all elements of a chain. -/
def All (holds : α → Prop) (c : Chain α) : Prop :=
  ∀ (position : Nat) (slot : Slot α), c.slots[position]? = some slot →
    ∀ value ∈ slot.value, holds value

theorem all_empty : (empty : Chain α).All holds := by
  intro position slot hslot
  simp [empty] at hslot

theorem All.modifySlot (h : c.All holds) (key : Key) {f : Slot α → Slot α}
    (hf : ∀ slot : Slot α, (∀ value ∈ slot.value, holds value) →
      ∀ value ∈ (f slot).value, holds value) :
    (c.modifySlot key f).All holds := by
  intro position slot hslot
  rw [slots_modifySlot] at hslot
  split at hslot
  · obtain ⟨old, hold, rfl⟩ := Option.map_eq_some_iff.mp hslot
    exact hf old (h position old hold)
  · exact h position slot hslot

theorem All.modify (h : c.All holds) (key : Key) {f : α → α}
    (hf : ∀ value, holds value → holds (f value)) : (c.modify key f).All holds := by
  refine h.modifySlot key fun slot hslot value hvalue => ?_
  obtain ⟨old, hold, rfl⟩ := Option.map_eq_some_iff.mp hvalue
  exact hf old (hslot old hold)

theorem All.allocate (h : c.All holds) {value : α} (hvalue : holds value) (prev next : Option Key) :
    (c.allocate value prev next).2.All holds := by
  intro position slot hslot
  unfold Chain.allocate at hslot
  split at hslot
  · dsimp only at hslot
    rw [Array.getElem?_setIfInBounds] at hslot
    split at hslot
    · split at hslot
      · cases hslot
        rintro _ ⟨⟩
        exact hvalue
      · cases hslot
    · exact h position slot hslot
  · dsimp only at hslot
    rw [Array.getElem?_push] at hslot
    split at hslot
    · cases hslot
      rintro _ ⟨⟩
      exact hvalue
    · exact h position slot hslot

theorem All.linkNext (h : c.All holds) (key next : Option Key) : (c.linkNext key next).All holds := by
  cases key with
  | none => exact h
  | some key => exact h.modifySlot key fun _ hslot => hslot

theorem All.push (h : c.All holds) {value : α} (hvalue : holds value) : (c.push value).2.All holds :=
  (h.allocate hvalue c.last none).linkNext c.last _

theorem All.get? (h : c.All holds) {key : Key} {value : α} (hvalue : c.get? key = some value) :
    holds value := by
  obtain ⟨slot, hslot, hvalue⟩ := Option.bind_eq_some_iff.mp hvalue
  exact h key.slot slot (slot?_eq_some.mp hslot).1 value hvalue

theorem All.of_mem_toList (h : c.All holds) {item : Key × α} (hitem : item ∈ c.toList) :
    holds item.2 := by
  obtain ⟨key, -, hfound⟩ := List.mem_filterMap.mp hitem
  obtain ⟨value, hvalue, rfl⟩ := Option.map_eq_some_iff.mp hfound
  exact h.get? hvalue

end Elements

end Chain

/-! ## Other elements in the same places -/

/-- The slot with another element. -/
def Slot.map {β : Type} (f : α → β) (slot : Slot α) : Slot β :=
  ⟨slot.value.map f, slot.generation, slot.prev, slot.next⟩

namespace Chain

section Map

variable {β : Type}

/-- The chain with other elements under the same keys. -/
def map (f : α → β) (c : Chain α) : Chain β :=
  ⟨c.slots.map (Slot.map f), c.free, c.first, c.last, c.size⟩

variable (f : α → β) (c : Chain α)

theorem slot?_map (key : Key) : (c.map f).slot? key = (c.slot? key).map (Slot.map f) := by
  unfold slot? map
  rw [Array.getElem?_map, Option.filter_map]
  congr 2
  funext slot
  simp [Slot.map]

theorem get?_map (key : Key) : (c.map f).get? key = (c.get? key).map f := by
  unfold get?
  rw [slot?_map]
  cases c.slot? key <;> rfl

theorem next?_map (key : Key) : (c.map f).next? key = c.next? key := by
  unfold next?
  rw [slot?_map]
  cases c.slot? key <;> rfl

theorem keys_map : (c.map f).keys = c.keys := by
  have hwalk (count : Nat) :
      ∀ key passed, (c.map f).walk count key passed = c.walk count key passed := by
    induction count with
    | zero => exact fun _ _ => rfl
    | succ count ih =>
        intro key passed
        cases key with
        | none => rfl
        | some key => rw [walk, walk, next?_map, ih]
  exact hwalk _ _ _

theorem toList_map : (c.map f).toList = c.toList.map fun item => (item.1, f item.2) := by
  unfold toList
  rw [keys_map, List.map_filterMap]
  congr 1
  funext key
  rw [get?_map]
  cases c.get? key <;> rfl

theorem modifySlot_map {g : Slot α → Slot α} {g' : Slot β → Slot β}
    (hg : ∀ slot, g' (slot.map f) = (g slot).map f) (key : Key) :
    (c.map f).modifySlot key g' = (c.modifySlot key g).map f := by
  unfold modifySlot isLive
  rw [slot?_map, Option.isSome_map]
  split
  · unfold map
    congr 1
    apply Array.ext_getElem?
    intro i
    simp only [Array.getElem?_modify, Array.getElem?_map]
    split <;> cases c.slots[i]? <;> simp [hg]
  · rfl

theorem linkNext_map (key next : Option Key) :
    (c.map f).linkNext key next = (c.linkNext key next).map f := by
  cases key with
  | none => rfl
  | some key => exact modifySlot_map f c (fun _ => rfl) key

theorem allocate_map (value : α) (prev next : Option Key) :
    (c.map f).allocate (f value) prev next =
      ((c.allocate value prev next).1, (c.allocate value prev next).2.map f) := by
  unfold allocate map
  cases hfree : c.free with
  | nil => simp [Slot.map]
  | cons slot free =>
      have hgeneration : ((c.slots.map (Slot.map f))[slot]?.map Slot.generation).getD 0 =
          (c.slots[slot]?.map Slot.generation).getD 0 := by
        rw [Array.getElem?_map]
        cases c.slots[slot]? <;> rfl
      simp only [hgeneration]
      simp [Slot.map]

theorem push_map (value : α) :
    (c.map f).push (f value) = ((c.push value).1, (c.push value).2.map f) := by
  unfold push
  simp only [show (c.map f).last = c.last from rfl, allocate_map, linkNext_map]
  rfl

end Map

end Chain

end GscAssembler.Code
