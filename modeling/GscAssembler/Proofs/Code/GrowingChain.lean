import GscAssembler.Code.Chain
import Mathlib

/-!
# Chains that only grow

Code that comes from a tree is never taken out of its chain again.  A chain that was only ever
appended to is determined by the list of its elements: `Chain.ofList` is that chain, its keys are the
positions of the list in their first generation, and every operation that lowering uses on it is an
operation on the list.

| chain | list |
|---|---|
| `push` | append at the end |
| `modify` | change at a position |
| `get?`, `next?` | element at a position, position after it |
| `toList` | the elements with their positions |
-/

namespace GscAssembler.Code

/-- The key of a position of a chain that was only appended to. -/
def Key.at (position : Nat) : Key :=
  ⟨position, 0⟩

@[simp] theorem Key.at_slot (position : Nat) : (Key.at position).slot = position := rfl

@[simp] theorem Key.at_inj {i j : Nat} : Key.at i = Key.at j ↔ i = j := by
  simp [Key.at]

namespace Chain

variable {α : Type}

/-- The slot of a position in a chain of `length` elements that was only appended to. -/
def grownSlot (length position : Nat) (value : α) : Slot α where
  value := some value
  generation := 0
  prev := if position = 0 then none else some (.at (position - 1))
  next := if position + 1 < length then some (.at (position + 1)) else none

/-- The chain that appending the elements of a list one after the other makes. -/
def ofList (items : List α) : Chain α where
  slots := (items.mapIdx fun i x => grownSlot items.length i x).toArray
  free := []
  first := if items = [] then none else some (.at 0)
  last := if items = [] then none else some (.at (items.length - 1))
  size := items.length

theorem ofList_nil : (ofList [] : Chain α) = empty := rfl

@[simp] theorem slots_ofList_getElem? (items : List α) (i : Nat) :
    (ofList items).slots[i]? = items[i]?.map (grownSlot items.length i) := by
  simp [ofList, List.getElem?_mapIdx]

@[simp] theorem slot?_ofList (items : List α) (i : Nat) :
    (ofList items).slot? (.at i) = items[i]?.map (grownSlot items.length i) := by
  rw [slot?, Key.at_slot, slots_ofList_getElem?]
  cases items[i]? with
  | none => rfl
  | some x => simp [grownSlot, Key.at]

theorem isLive_ofList (items : List α) (i : Nat) :
    (ofList items).isLive (.at i) = decide (i < items.length) := by
  rw [isLive, slot?_ofList, Option.isSome_map]
  by_cases h : i < items.length <;> simp [h]

@[simp] theorem get?_ofList (items : List α) (i : Nat) :
    (ofList items).get? (.at i) = items[i]? := by
  rw [get?, slot?_ofList]
  cases items[i]? <;> simp [grownSlot]

theorem next?_ofList {items : List α} {i : Nat} :
    (ofList items).next? (.at i) = if i + 1 < items.length then some (.at (i + 1)) else none := by
  rw [next?, slot?_ofList]
  by_cases h : i < items.length
  · simp [h, grownSlot]
  · have hout : ¬ i + 1 < items.length := by omega
    simp [h, hout]

theorem last_ofList_getD {items : List α} (h : 0 < items.length) (head : Key) :
    (ofList items).last.getD head = .at (items.length - 1) := by
  have hne : items ≠ [] := List.ne_nil_of_length_pos h
  simp [ofList, hne]

/-! ## Appending -/

/-- A chain with a new slot behind its own, of which its last element does not know yet. -/
private def extended (items : List α) (x : α) : Chain α :=
  { ofList items with
    slots := (ofList items).slots.push (grownSlot (items.length + 1) items.length x)
    size := items.length + 1 }

private theorem allocate_ofList {items : List α} (h : items ≠ []) (x : α) :
    (ofList items).allocate x (ofList items).last none = (.at items.length, extended items x) := by
  have hlen : items.length ≠ 0 := by simpa using h
  simp [allocate, extended, ofList, grownSlot, Key.at, h, hlen]

private theorem isLive_extended {items : List α} (h : items ≠ []) (x : α) :
    (extended items x).isLive (.at (items.length - 1)) = true := by
  have hlt : items.length - 1 < (ofList items).slots.size := by
    have := List.length_pos_iff.mpr h
    simp only [ofList, List.size_toArray, List.length_mapIdx]
    omega
  have hslot : (extended items x).slots[items.length - 1]? =
      (ofList items).slots[items.length - 1]? := Array.getElem?_push_lt hlt |>.trans
        (Array.getElem?_eq_getElem hlt).symm
  have hlive := isLive_ofList items (items.length - 1)
  rw [isLive, slot?, Key.at_slot] at hlive ⊢
  rw [hslot, hlive]
  have := List.length_pos_iff.mpr h
  exact decide_eq_true (by omega)

private theorem slots_extended {items : List α} (h : items ≠ []) (x : α) :
    (extended items x).slots.modify (items.length - 1)
        (fun slot => { slot with next := some (.at items.length) }) =
      (ofList (items ++ [x])).slots := by
  have hlen : 0 < items.length := List.length_pos_iff.mpr h
  apply Array.ext
  · simp [extended, ofList]
  · intro i hi hi'
    have hbound : i < items.length + 1 := by simpa [extended, ofList] using hi
    -- only the slot before the new one is told of its neighbour
    rw [Array.getElem_modify]
    rcases Nat.lt_or_ge i items.length with hlt | hge
    · by_cases heq : items.length - 1 = i
      · have hsucc : i + 1 = items.length := by omega
        simp [extended, ofList, hlt, grownSlot, heq, hsucc]
      · have hnext : i + 1 < items.length := by omega
        simp [extended, ofList, hlt, grownSlot, heq, hnext]
    · have hend : i = items.length := by omega
      subst hend
      have hne : items.length - 1 ≠ items.length := by omega
      simp [extended, ofList, grownSlot, hne]

theorem push_ofList (items : List α) (x : α) :
    (ofList items).push x = (.at items.length, ofList (items ++ [x])) := by
  by_cases h : items = []
  · subst h
    simp [push, allocate, linkNext, ofList, grownSlot, Key.at]
  · have hlast : (ofList items).last = some (.at (items.length - 1)) := by simp [ofList, h]
    have hslots := slots_extended h x
    have hlive := isLive_extended h x
    rw [push, allocate_ofList h x, hlast]
    simp only [linkNext, modifySlot, hlive, if_true, Key.at_slot, hslots]
    simp [extended, ofList, h]

/-! ## Changing an element -/

theorem modify_ofList (items : List α) (i : Nat) (f : α → α) :
    (ofList items).modify (.at i) f = ofList (items.modify i f) := by
  rw [modify, modifySlot, isLive_ofList]
  by_cases h : i < items.length
  · have hslots : (ofList items).slots.modify i
        (fun slot => { slot with value := slot.value.map f }) =
        (ofList (items.modify i f)).slots := by
      apply Array.ext
      · simp [ofList]
      · intro j hj hj'
        rw [Array.getElem_modify]
        by_cases hij : i = j <;> simp [ofList, grownSlot, hij]
    have hnil : items.modify i f = [] ↔ items = [] := by
      rw [← List.length_eq_zero_iff, List.length_modify, List.length_eq_zero_iff]
    simp only [h, decide_true, if_true, Key.at_slot, hslots]
    simp [ofList, hnil]
  · rw [List.modify_eq_self (by omega)]
    simp [h]

/-! ## Walking along the chain -/

theorem walk_ofList (items : List α) (count : Nat) :
    ∀ (start : Nat) (passed : List Key), start + count = items.length →
      (ofList items).walk count (if start < items.length then some (.at start) else none) passed =
        passed.reverse ++ (List.range' start count).map Key.at := by
  induction count with
  | zero =>
      intro start passed _
      simp [walk]
  | succ count ih =>
      intro start passed hstart
      have hlt : start < items.length := by omega
      rw [if_pos hlt, walk, next?_ofList, ih (start + 1) _ (by omega), List.range'_succ]
      simp

theorem keys_ofList (items : List α) :
    (ofList items).keys = (List.range items.length).map Key.at := by
  have hfirst : (ofList items).first = if 0 < items.length then some (.at 0) else none := by
    cases items <;> simp [ofList]
  rw [keys, hfirst, List.range_eq_range']
  exact walk_ofList items items.length 0 [] (by omega)

private theorem filterMap_range_getElem? {β : Type} (g : Nat → α → β) (items : List α) :
    (List.range items.length).filterMap (fun i => items[i]?.map (g i)) = items.mapIdx g := by
  induction items using List.reverseRecOn with
  | nil => rfl
  | append_singleton items x ih =>
      have hbefore : (List.range items.length).filterMap
          (fun i => (items ++ [x])[i]?.map (g i)) = items.mapIdx g := by
        rw [← ih]
        apply List.filterMap_congr
        intro i hi
        rw [List.getElem?_append_left (List.mem_range.mp hi)]
      rw [List.length_append, List.length_singleton, List.range_succ, List.filterMap_append,
        hbefore, List.mapIdx_concat]
      simp

@[simp] theorem toList_ofList (items : List α) :
    (ofList items).toList = items.mapIdx fun i x => (.at i, x) := by
  rw [toList, keys_ofList, List.filterMap_map, ← filterMap_range_getElem?]
  apply List.filterMap_congr
  intro i _
  simp

theorem map_snd_toList_ofList (items : List α) : (ofList items).toList.map (·.2) = items := by
  apply List.ext_getElem?
  intro i
  simp [Function.comp_def]

end Chain

end GscAssembler.Code
