import GscAssembler.Proofs.Code.ChainSlots

/-!
# Keys that last

A chain is a list whose elements have names.  Here elements may also be inserted and removed, slots
are used again, and keys may be asked for long after their element is gone.  Whatever is called on a
chain in whatever order, the chain answers as a plain list would that remembers each key it ever gave
out and never gives out one of them again (`chain_refines_list`).

`Represents` is the invariant: the slots of the chain are those that the list asks for, and the
generations of the slots tell the keys of the past from those of the present.  One call keeps it
(`Represents.call`), and so does any number of them (`Represents.calls`).
-/

namespace GscAssembler.Code

variable {α : Type}

/-! ## Calls, and what a list makes of them -/

/-- A call of an operation that changes a chain. -/
inductive Call (α : Type) where
  /-- Appends an element. -/
  | push (value : α)
  /-- Inserts an element directly behind another. -/
  | insertAfter (after : Key) (value : α)
  /-- Takes an element out. -/
  | remove (key : Key)
  /-- Changes an element. -/
  | modify (key : Key) (f : α → α)

/-- The element that a call is about. -/
def Call.key? : Call α → Option Key
  | push _ => none
  | insertAfter key _ | remove key | modify key _ => some key

/-- The answer to a call. -/
inductive Reply (α : Type) where
  /-- The key of a new element. -/
  | issued (key : Key)
  /-- The element that is taken out or changed. -/
  | found (value : α)
  /-- There is no such element. -/
  | nothing

/-- The key that an answer gives out. -/
def Reply.key? : Reply α → Option Key
  | issued key => some key
  | found _ | nothing => none

/-- What a chain answers to a call, and what it is afterwards. -/
def Chain.call (c : Chain α) : Call α → Reply α × Chain α
  | .push value => ((c.push value).map .issued id)
  | .insertAfter after value => (c.insertAfter after value).map (·.elim .nothing .issued) id
  | .remove key => (c.remove key).map (·.elim .nothing .found) id
  | .modify key f => ((c.get? key).elim .nothing .found, c.modify key f)

/-- The answers of a chain to several calls, and what it is afterwards. -/
def Chain.calls (c : Chain α) : List (Call α) → List (Reply α) × Chain α
  | [] => ([], c)
  | call :: rest =>
      let (reply, c) := c.call call
      (c.calls rest).map (reply :: ·) id

/-- A list of elements that remembers which keys it ever gave out. -/
structure Ledger (α : Type) where
  /-- The elements with their keys. -/
  items : List (Key × α) := []
  /-- All keys ever given out. -/
  issued : List Key := []

namespace Ledger

/-- The keys of the elements. -/
def keys (l : Ledger α) : List Key :=
  l.items.map (·.1)

/-- The element of a key. -/
def get? (l : Ledger α) (key : Key) : Option α :=
  (l.items.find? (·.1 = key)).map (·.2)

/-- What a list answers to a call, if `fresh` is the key for a new element. -/
def call (fresh : Key) (l : Ledger α) : Call α → Reply α × Ledger α
  | .push value => (.issued fresh, ⟨l.items ++ [(fresh, value)], fresh :: l.issued⟩)
  | .insertAfter after value =>
      if after ∈ l.keys then
        (.issued fresh,
          ⟨l.items.flatMap fun item => if item.1 = after then [item, (fresh, value)] else [item],
            fresh :: l.issued⟩)
      else (.nothing, l)
  | .remove key =>
      ((l.get? key).elim .nothing .found, { l with items := l.items.filter (·.1 ≠ key) })
  | .modify key f =>
      ((l.get? key).elim .nothing .found,
        { l with items := l.items.map fun item => if item.1 = key then (key, f item.2) else item })

/-- Whether a list answers so to several calls, and is so afterwards.  A key that is given out is one
that was never given out before. -/
inductive Runs : Ledger α → List (Call α) → List (Reply α) → Ledger α → Prop where
  | nil (l : Ledger α) : Runs l [] [] l
  | cons {l l' : Ledger α} {fresh : Key} {call : Call α} {calls : List (Call α)}
      {replies : List (Reply α)}
      (hfresh : ∀ key, (l.call fresh call).1.key? = some key → key ∉ l.issued)
      (h : Runs (l.call fresh call).2 calls replies l') :
      Runs l (call :: calls) ((l.call fresh call).1 :: replies) l'

/-! ## The element of a key -/

section Split

variable {before after : List (Key × α)} {key : Key} {value : α}

theorem exists_split {items : List (Key × α)} (hnodup : (items.map (·.1)).Nodup)
    (h : key ∈ items.map (·.1)) :
    ∃ before value after, items = before ++ (key, value) :: after ∧
      (∀ item ∈ before, item.1 ≠ key) ∧ ∀ item ∈ after, item.1 ≠ key := by
  obtain ⟨⟨_, value⟩, hmem, rfl⟩ := List.mem_map.mp h
  obtain ⟨before, after, rfl⟩ := List.append_of_mem hmem
  refine ⟨before, value, after, rfl, ?_⟩
  simp only [List.map_append, List.map_cons, List.nodup_append, List.nodup_cons, List.mem_map,
    List.mem_cons] at hnodup
  refine ⟨fun item hitem heq => ?_, fun item hitem heq => ?_⟩
  · exact hnodup.2.2 item.1 ⟨item, hitem, rfl⟩ _ (.inl rfl) heq
  · exact hnodup.2.1.1 ⟨item, hitem, heq⟩

variable (hbefore : ∀ item ∈ before, item.1 ≠ key) (hafter : ∀ item ∈ after, item.1 ≠ key)

include hbefore in
theorem get?_split (issued : List Key) :
    get? ⟨before ++ (key, value) :: after, issued⟩ key = some value := by
  have hnone : before.find? (fun item => decide (item.1 = key)) = none := by
    simpa using hbefore
  simp [get?, List.find?_append, hnone]

include hbefore hafter in
theorem insert_split (new : Key × α) :
    ((before ++ (key, value) :: after).flatMap fun item =>
      if item.1 = key then [item, new] else [item]) =
        before ++ (key, value) :: new :: after := by
  have hsame : ∀ items : List (Key × α), (∀ item ∈ items, item.1 ≠ key) →
      (items.flatMap fun item => if item.1 = key then [item, new] else [item]) = items := by
    intro items hitems
    induction items with
    | nil => rfl
    | cons item items ih =>
        rw [List.flatMap_cons, if_neg (hitems item (List.mem_cons_self ..)),
          ih fun item hitem => hitems item (List.mem_cons_of_mem _ hitem)]
        rfl
  rw [List.flatMap_append, List.flatMap_cons, hsame before hbefore, hsame after hafter, if_pos rfl]
  rfl

include hbefore hafter in
theorem filter_split : (before ++ (key, value) :: after).filter (·.1 ≠ key) = before ++ after := by
  have hb : before.filter (fun item => decide (item.1 ≠ key)) = before := by simpa using hbefore
  have ha : after.filter (fun item => decide (item.1 ≠ key)) = after := by simpa using hafter
  simp only [List.filter_append, List.filter_cons, ne_eq, not_true, decide_false] at hb ha ⊢
  rw [hb, ha]
  rfl

include hbefore hafter in
theorem map_split (f : α → α) :
    (before ++ (key, value) :: after).map (fun item => if item.1 = key then (key, f item.2) else item) =
      before ++ (key, f value) :: after := by
  have hsame : ∀ items : List (Key × α), (∀ item ∈ items, item.1 ≠ key) →
      items.map (fun item => if item.1 = key then (key, f item.2) else item) = items := by
    intro items hitems
    apply (List.map_congr_left fun item hitem => if_neg (hitems item hitem)).trans
    exact List.map_id' items
  rw [List.map_append, List.map_cons, hsame before hbefore, hsame after hafter, if_pos rfl]

end Split

end Ledger

/-! ## Chains that represent lists -/

namespace Chain

/-- Whether a chain stands for a list: its slots are those that the list asks for, and of a slot that
was used again the earlier keys are of earlier generations. -/
structure Represents (c : Chain α) (l : Ledger α) : Prop where
  nodup : l.keys.Nodup
  slots : ∀ key, c.slot? key = slotIn none l.items key
  first : c.first = l.items.head?.map (·.1)
  last : c.last = lastKeyOf none l.items
  size : c.size = l.items.length
  free : c.FreeSlots
  issued : ∀ key ∈ l.issued, ∃ generation used, c.stamp? key.slot = some (generation, used) ∧
    (key.generation < generation ∨ key.generation = generation ∧ used = true)
  issued_nodup : l.issued.Nodup
  keys_issued : ∀ key ∈ l.keys, key ∈ l.issued

theorem represents_empty : (empty : Chain α).Represents {} where
  nodup := List.nodup_nil
  slots := fun key => by simp [slot?, empty, slotIn]
  first := rfl
  last := rfl
  size := rfl
  free := freeSlots_empty
  issued := by simp
  issued_nodup := List.nodup_nil
  keys_issued := by simp [Ledger.keys]

theorem lastKeyOf_eq_none {items : List (Key × α)} : lastKeyOf none items = none ↔ items = [] := by
  simp [lastKeyOf]

namespace Represents

variable {c : Chain α} {l : Ledger α}

theorem isLive_iff (h : c.Represents l) (key : Key) : c.isLive key = true ↔ key ∈ l.keys := by
  rw [isLive, h.slots, isSome_slotIn, Ledger.keys]

section Insert

variable {before after : List (Key × α)} {issued : List Key}

/-- A new key was never given out before. -/
theorem fresh (h : c.Represents l) (value : α) (prev next : Option Key) :
    (c.allocate value prev next).1 ∉ l.issued := by
  intro hmem
  obtain ⟨generation, used, hstamp, hpast⟩ := h.issued _ hmem
  rcases stamp?_allocate_key h.free value prev next with hnone | hfree
  · rw [hnone] at hstamp
    cases hstamp
  · rw [hfree] at hstamp
    obtain ⟨rfl, rfl⟩ := Prod.mk.inj (Option.some.inj hstamp)
    simp at hpast

/-- Putting an element into a gap. -/
theorem insert (h : c.Represents ⟨before ++ after, issued⟩) (value : α) {prev next : Option Key}
    (hprev : prev = lastKeyOf none before) (hnext : next = after.head?.map (·.1)) {new : Key}
    {c' : Chain α} (hnew : c.allocate value prev next = (new, c')) :
    ((c'.linkNext prev (some new)).linkPrev next (some new)).Represents
      ⟨before ++ (new, value) :: after, new :: issued⟩ := by
  have hfresh : new ∉ issued := by
    have := h.fresh value prev next
    rwa [hnew] at this
  have hperm : ((before ++ (new, value) :: after).map (·.1)).Perm
      (new :: (before ++ after).map (·.1)) := List.perm_middle.map Prod.fst
  have habsent : new ∉ (before ++ after).map (·.1) := fun hmem => hfresh (h.keys_issued new hmem)
  have hslot := slot?_allocate h.free value prev next
  have hstamp := stamp?_allocate h.free value prev next
  have hfree := h.free.allocate value prev next
  obtain ⟨hfirst', hlast', hsize', -, -⟩ := c.allocate_ends value prev next
  rw [hnew] at hslot hstamp hfree hfirst' hlast' hsize'
  obtain ⟨hfirst, hlast, hsize, hfree'⟩ := c'.link_ends prev next (some new) (some new)
  constructor
  case nodup => exact hperm.nodup_iff.mpr (List.nodup_cons.mpr ⟨habsent, h.nodup⟩)
  case slots =>
    intro key
    rw [slot?_link, hslot]
    split
    · rename_i hkey
      subst hkey
      have hbefore : key ∉ before.map (·.1) := fun hmem => habsent (by simp [hmem])
      have hne_prev : prev ≠ some key := by
        intro heq
        rcases lastKeyOf_mem (hprev ▸ heq) with hmem | hmem
        · exact hbefore hmem
        · cases hmem
      have hne_next : next ≠ some key := by
        intro heq
        rw [hnext] at heq
        obtain ⟨item, hitem, rfl⟩ := Option.map_eq_some_iff.mp heq
        refine habsent ?_
        rw [List.map_append]
        exact List.mem_append_right _ (List.mem_map_of_mem (List.mem_of_head? hitem))
      rw [slotIn_self value hbefore, ← hprev, ← hnext]
      simp [rewire, hne_prev, hne_next]
    · rename_i hkey
      have hsplice : slotIn none (before ++ ([(new, value)] ++ after)) key = _ :=
        slotIn_splice h.nodup (by simpa using hkey) (by simp)
      rw [h.slots, ← List.singleton_append, hsplice, hprev, hnext]
      rfl
  case first =>
    rw [hfirst, hfirst', h.first, hprev]
    cases before with
    | nil => simp [lastKeyOf]
    | cons item before => simp [lastKeyOf_eq_none]
  case last =>
    rw [hlast, hlast', h.last, hnext]
    cases after with
    | nil => simp [lastKeyOf]
    | cons item after => simp [lastKeyOf, List.getLast?_cons_cons]
  case size =>
    rw [hsize, hsize', h.size]
    simp [Nat.add_assoc]
  case free => exact hfree.of_stamp?_eq hfree' (stamp?_link c' prev next _ _)
  case issued =>
    intro key hkey
    rw [stamp?_link, hstamp]
    rcases List.mem_cons.mp hkey with rfl | hkey
    · exact ⟨_, _, if_pos rfl, .inr ⟨rfl, rfl⟩⟩
    · obtain ⟨generation, used, hold, hpast⟩ := h.issued key hkey
      split
      · -- the slot was not in use, so the key is of an earlier generation
        rename_i hsame
        have hfree := stamp?_allocate_key h.free value prev next
        rw [hnew, ← hsame, hold] at hfree
        rcases hfree with hfree | hfree
        · cases hfree
        · obtain ⟨rfl, rfl⟩ := Prod.mk.inj (Option.some.inj hfree)
          exact ⟨_, _, rfl, .inl (by simpa using hpast)⟩
      · exact ⟨generation, used, hold, hpast⟩
  case issued_nodup => exact List.nodup_cons.mpr ⟨hfresh, h.issued_nodup⟩
  case keys_issued =>
    intro key hkey
    rcases List.mem_cons.mp (hperm.mem_iff.mp hkey) with rfl | hkey
    · exact List.mem_cons_self ..
    · exact List.mem_cons_of_mem _ (h.keys_issued key hkey)

end Insert

section Change

variable {before after : List (Key × α)} {issued : List Key} {key : Key} {value : α}

/-- Taking an element out. -/
theorem remove (h : c.Represents ⟨before ++ (key, value) :: after, issued⟩)
    (hbefore : ∀ item ∈ before, item.1 ≠ key) :
    (c.remove key).1 = some value ∧ (c.remove key).2.Represents ⟨before ++ after, issued⟩ := by
  have hkey : key ∉ before.map (·.1) := by
    rintro hmem
    obtain ⟨item, hitem, heq⟩ := List.mem_map.mp hmem
    exact hbefore item hitem heq
  have hslot := h.slots key
  rw [slotIn_self value hkey] at hslot
  generalize hprev : lastKeyOf none before = prev at hslot
  generalize hnext : after.head?.map (·.1) = next at hslot
  have hremove : c.remove key =
      (some value, ((c.linkNext prev next).linkPrev next prev).clear key) := by
    rw [Chain.remove, hslot]
    rfl
  have hperm : ((before ++ (key, value) :: after).map (·.1)).Perm
      (key :: (before ++ after).map (·.1)) := List.perm_middle.map Prod.fst
  obtain ⟨habsent, hnodup⟩ := List.nodup_cons.mp (hperm.nodup_iff.mp h.nodup)
  have hlive : (((c.linkNext prev next).linkPrev next prev).slot? key).isSome = true := by
    rw [slot?_link, hslot]
    rfl
  have hstamp := isSome_slot?.mp hlive
  rw [stamp?_link] at hstamp
  obtain ⟨hfirst, hlast, hsize, hfree⟩ := c.link_ends prev next next prev
  rw [hremove]
  refine ⟨rfl, ?_⟩
  constructor
  case nodup => exact hnodup
  case slots =>
    intro other
    rw [slot?_clear hlive, slot?_link, h.slots]
    split
    · rename_i hother
      symm
      rw [← Option.not_isSome_iff_eq_none, isSome_slotIn, hother]
      exact habsent
    · rename_i hother
      rw [slotIn_erase hnodup hother, hprev, hnext]
  case first =>
    change ((c.linkNext prev next).linkPrev next prev).first = _
    rw [hfirst, h.first, ← hprev]
    cases before with
    | nil => simp [lastKeyOf, hnext]
    | cons item before => simp [lastKeyOf_eq_none]
  case last =>
    change ((c.linkNext prev next).linkPrev next prev).last = _
    rw [hlast, h.last, ← hnext]
    cases after with
    | nil => simp [← hprev]
    | cons item after => simp [lastKeyOf, List.getLast?_cons_cons]
  case size =>
    change ((c.linkNext prev next).linkPrev next prev).size - 1 = _
    rw [hsize, h.size]
    simp
  case free =>
    exact (h.free.of_stamp?_eq hfree (stamp?_link c prev next next prev)).clear hlive
  case issued =>
    intro other hother
    obtain ⟨generation, used, hold, hpast⟩ := h.issued other hother
    rw [stamp?_clear hlive, stamp?_link]
    split
    · -- all keys of the slot that were given out are now of the past
      rename_i hsame
      rw [hsame, hstamp] at hold
      obtain ⟨rfl, -⟩ := Prod.mk.inj (Option.some.inj hold)
      exact ⟨_, _, rfl, .inl (by omega)⟩
    · exact ⟨generation, used, hold, hpast⟩
  case issued_nodup => exact h.issued_nodup
  case keys_issued =>
    exact fun other hother => h.keys_issued other
      (hperm.mem_iff.mpr (List.mem_cons_of_mem _ hother))

/-- Changing an element. -/
theorem modify (h : c.Represents ⟨before ++ (key, value) :: after, issued⟩)
    (hbefore : ∀ item ∈ before, item.1 ≠ key) (f : α → α) :
    (c.modify key f).Represents ⟨before ++ (key, f value) :: after, issued⟩ := by
  have hkey : key ∉ before.map (·.1) := by
    rintro hmem
    obtain ⟨item, hitem, heq⟩ := List.mem_map.mp hmem
    exact hbefore item hitem heq
  have hkeys : (before ++ (key, f value) :: after).map (·.1) =
      (before ++ (key, value) :: after).map (·.1) := by simp
  obtain ⟨hfirst, hlast, hsize, hfree⟩ :=
    c.modifySlot_ends key fun slot => { slot with value := slot.value.map f }
  constructor
  case nodup =>
    rw [Ledger.keys, hkeys]
    exact h.nodup
  case slots =>
    intro other
    rw [Chain.modify, slot?_modifySlot (mild_value f), h.slots]
    split
    · rename_i hother
      rw [hother, slotIn_self value hkey, slotIn_self (f value) hkey]
      rfl
    · rename_i hother
      exact (slotIn_change hother).symm
  case first =>
    rw [Chain.modify, hfirst, h.first]
    cases before <;> rfl
  case last =>
    rw [Chain.modify, hlast, h.last]
    cases after <;> simp [lastKeyOf, List.getLast?_append, List.getLast?_cons_cons]
  case size =>
    rw [Chain.modify, hsize, h.size]
    simp
  case free => exact h.free.of_stamp?_eq hfree (stamp?_modifySlot (mild_value f) key)
  case issued =>
    intro other hother
    rw [Chain.modify, stamp?_modifySlot (mild_value f)]
    exact h.issued other hother
  case issued_nodup => exact h.issued_nodup
  case keys_issued =>
    intro other hother
    rw [Ledger.keys, hkeys] at hother
    exact h.keys_issued other hother

end Change

end Represents

/-- A call on a key that is not there changes nothing. -/
theorem call_of_not_live {c : Chain α} {key : Key} (hlive : c.isLive key = false) {call : Call α}
    (hcall : call.key? = some key) : c.call call = (.nothing, c) := by
  have hslot := slot?_of_not_live hlive
  cases call with
  | push => cases hcall
  | insertAfter =>
      cases hcall
      simp [Chain.call, insertAfter, hslot]
  | remove =>
      cases hcall
      simp [Chain.call, remove, hslot]
  | modify =>
      cases hcall
      simp [Chain.call, modify, modifySlot, get?, hslot, hlive]

end Chain

/-! ## Steps and runs -/

namespace Ledger

theorem get?_of_notMem {l : Ledger α} {key : Key} (h : key ∉ l.keys) : l.get? key = none := by
  have hnone : l.items.find? (fun item => decide (item.1 = key)) = none := by
    rw [List.find?_eq_none]
    intro item hitem heq
    exact h (of_decide_eq_true heq ▸ List.mem_map_of_mem hitem)
  rw [get?, hnone]
  rfl

/-- A call on a key that is not there changes nothing. -/
theorem call_of_notMem {l : Ledger α} {key fresh : Key} (h : key ∉ l.keys) {call : Call α}
    (hcall : call.key? = some key) : l.call fresh call = (.nothing, l) := by
  have hne : ∀ item ∈ l.items, item.1 ≠ key := fun item hitem heq =>
    h (heq ▸ List.mem_map_of_mem hitem)
  cases call with
  | push => cases hcall
  | insertAfter =>
      cases hcall
      simp [Ledger.call, h]
  | remove =>
      cases hcall
      have hsame : l.items.filter (fun item => decide (item.1 ≠ key)) = l.items := by
        simpa using hne
      simp only [Ledger.call, get?_of_notMem h, hsame]
      rfl
  | modify key f =>
      cases hcall
      have hsame : (l.items.map fun item => if item.1 = key then (key, f item.2) else item) =
          l.items :=
        (List.map_congr_left fun item hitem => if_neg (hne item hitem)).trans (List.map_id' _)
      simp only [Ledger.call, get?_of_notMem h, hsame]
      rfl

end Ledger

namespace Chain

variable {c : Chain α} {l : Ledger α}

/-- One call: the chain answers as the list does, with a key that was never given out before. -/
theorem Represents.call (h : c.Represents l) (call : Call α) :
    ∃ fresh, (∀ key, (l.call fresh call).1.key? = some key → key ∉ l.issued) ∧
      (c.call call).1 = (l.call fresh call).1 ∧ (c.call call).2.Represents (l.call fresh call).2 := by
  by_cases hmissing : ∃ key, call.key? = some key ∧ key ∉ l.keys
  · obtain ⟨key, hcall, hkey⟩ := hmissing
    have hlive : c.isLive key = false := by
      rw [← Bool.not_eq_true, h.isLive_iff]
      exact hkey
    refine ⟨key, ?_⟩
    rw [call_of_not_live hlive hcall, Ledger.call_of_notMem hkey hcall]
    exact ⟨fun _ hnone => (by cases hnone), rfl, h⟩
  · have hthere : ∀ key, call.key? = some key → key ∈ l.keys := fun key hcall =>
      Classical.byContradiction fun hkey => hmissing ⟨key, hcall, hkey⟩
    obtain ⟨items, issued⟩ := l
    cases call with
    | push value =>
        have hfresh := h.fresh value c.last none
        have h' : c.Represents ⟨items ++ [], issued⟩ := by rwa [List.append_nil]
        refine ⟨(c.allocate value c.last none).1, fun key hkey => ?_, rfl,
          h'.insert value h.last rfl rfl⟩
        cases hkey
        exact hfresh
    | insertAfter key value =>
        obtain ⟨before, old, after, rfl, hbefore, hafter⟩ :=
          Ledger.exists_split h.nodup (hthere key rfl)
        have hfresh := h.fresh value (some key) (after.head?.map (·.1))
        have hslot : c.slot? key = some ⟨some old, key.generation, lastKeyOf none before,
            after.head?.map (·.1)⟩ := by
          rw [h.slots]
          apply slotIn_self old
          simpa using fun other hmem => hbefore (key, other) hmem rfl
        have h' : c.Represents ⟨(before ++ [(key, old)]) ++ after, issued⟩ := by
          rwa [List.append_assoc]
        have hinsert := h'.insert value (by simp [lastKeyOf]) rfl
          (Prod.mk.eta (p := c.allocate value (some key) (after.head?.map (·.1)))).symm
        refine ⟨(c.allocate value (some key) (after.head?.map (·.1))).1, ?_⟩
        have hmem : key ∈ Ledger.keys ⟨before ++ (key, old) :: after, issued⟩ := hthere key rfl
        rw [Ledger.call, if_pos hmem, Ledger.insert_split hbefore hafter]
        rw [List.append_assoc] at hinsert
        rw [Chain.call, insertAfter, hslot]
        refine ⟨fun other hother => ?_, rfl, hinsert⟩
        cases hother
        exact hfresh
    | remove key =>
        obtain ⟨before, old, after, rfl, hbefore, hafter⟩ :=
          Ledger.exists_split h.nodup (hthere key rfl)
        obtain ⟨hvalue, hrest⟩ := h.remove hbefore
        refine ⟨key, ?_⟩
        rw [Ledger.call, Ledger.get?_split hbefore, Ledger.filter_split hbefore hafter]
        refine ⟨fun _ hnone => (by cases hnone), ?_, hrest⟩
        simp [Chain.call, hvalue]
    | modify key f =>
        obtain ⟨before, old, after, rfl, hbefore, hafter⟩ :=
          Ledger.exists_split h.nodup (hthere key rfl)
        refine ⟨key, ?_⟩
        rw [Ledger.call, Ledger.get?_split hbefore, Ledger.map_split hbefore hafter]
        refine ⟨fun _ hnone => (by cases hnone), ?_, h.modify hbefore f⟩
        have hget : c.get? key = some old := by
          rw [get?, h.slots, slotIn_self old]
          · rfl
          · simpa using fun other hmem => hbefore (key, other) hmem rfl
        simp [Chain.call, hget]

/-- Several calls. -/
theorem Represents.calls (h : c.Represents l) (calls : List (Call α)) :
    ∃ l', l.Runs calls (c.calls calls).1 l' ∧ (c.calls calls).2.Represents l' := by
  induction calls generalizing c l with
  | nil => exact ⟨l, .nil l, h⟩
  | cons call calls ih =>
      obtain ⟨fresh, hfresh, hreply, hnext⟩ := h.call call
      obtain ⟨l', hruns, hrepresents⟩ := ih hnext
      refine ⟨l', ?_, hrepresents⟩
      have hcons := Ledger.Runs.cons hfresh hruns
      rwa [← hreply] at hcons

/-! ## What can be seen of a chain -/

/-- The key that following the links from the start of a chain leads to after some steps. -/
def cursor (c : Chain α) : (steps : Nat) → Option Key
  | 0 => c.first
  | steps + 1 => (c.cursor steps).bind c.next?

/-- Whether a chain shows the elements of a list, in order. -/
structure Shows (c : Chain α) (items : List (Key × α)) : Prop where
  keys : c.keys = items.map (·.1)
  nodup : c.keys.Nodup
  live : ∀ key, c.isLive key = true ↔ key ∈ c.keys
  toList : c.toList = items
  get : ∀ key, c.get? key = (items.find? (·.1 = key)).map (·.2)
  cursor : ∀ steps, c.cursor steps = c.keys[steps]?
  next : ∀ position key, c.keys[position]? = some key → c.next? key = c.keys[position + 1]?
  prev : ∀ key other, c.prev? other = some key ↔ c.next? key = some other
  first : c.first = c.keys.head?
  last : c.last = c.keys.getLast?
  size : c.size = items.length
  free : c.free.Nodup ∧
    ∀ position, position ∈ c.free ↔ ∃ slot, c.slots[position]? = some slot ∧ slot.value = none

/-- The element of a key, by its slot. -/
theorem bind_value_slotIn (prev : Option Key) (items : List (Key × α)) (key : Key) :
    (slotIn prev items key).bind Slot.value = (items.find? (·.1 = key)).map (·.2) := by
  induction items generalizing prev with
  | nil => rfl
  | cons item items ih =>
      rw [slotIn, List.find?_cons]
      by_cases hkey : key = item.1
      · simp [hkey]
      · rw [if_neg hkey, ih]
        simp [Ne.symm hkey]

namespace Represents

variable (h : c.Represents l)
include h

/-- The neighbours of an element are those before and behind it in the list. -/
theorem slot?_of_getElem? {position : Nat} {key : Key}
    (hposition : l.keys[position]? = some key) :
    ∃ value, c.slot? key = some ⟨some value, key.generation,
      if position = 0 then none else l.keys[position - 1]?, l.keys[position + 1]?⟩ := by
  rw [Ledger.keys, List.getElem?_map] at hposition
  obtain ⟨item, hitem, rfl⟩ := Option.map_eq_some_iff.mp hposition
  obtain ⟨hlt, heq⟩ := List.getElem?_eq_some_iff.mp hitem
  have hsplit : l.items.take position ++ (item.1, item.2) :: l.items.drop (position + 1) =
      l.items := by
    rw [Prod.mk.eta, ← heq, ← List.drop_eq_getElem_cons hlt, List.take_append_drop]
  have hbefore : item.1 ∉ (l.items.take position).map (·.1) := by
    have hnodup := h.nodup
    rw [Ledger.keys, ← hsplit, List.map_append, List.map_cons] at hnodup
    intro hmem
    exact (List.disjoint_of_nodup_append hnodup) hmem (List.mem_cons_self ..)
  have hslot := h.slots item.1
  rw [← hsplit, slotIn_self item.2 hbefore, List.head?_drop] at hslot
  refine ⟨item.2, hslot.trans ?_⟩
  simp only [Ledger.keys, List.getElem?_map]
  congr 2
  rw [lastKeyOf, Option.or_none, List.getLast?_take]
  split
  · rfl
  · have : position - 1 < l.items.length := by omega
    simp [List.getElem?_eq_getElem this]

theorem next?_of_getElem? {position : Nat} {key : Key}
    (hposition : l.keys[position]? = some key) : c.next? key = l.keys[position + 1]? := by
  obtain ⟨value, hslot⟩ := h.slot?_of_getElem? hposition
  rw [next?, hslot]
  rfl

theorem prev?_of_getElem? {position : Nat} {key : Key}
    (hposition : l.keys[position]? = some key) :
    c.prev? key = if position = 0 then none else l.keys[position - 1]? := by
  obtain ⟨value, hslot⟩ := h.slot?_of_getElem? hposition
  rw [prev?, hslot]
  rfl

/-- A key with a neighbour is one of the list. -/
theorem exists_getElem? {key : Key} (hlive : (c.slot? key).isSome = true) :
    ∃ position : Nat, l.keys[position]? = some key :=
  List.mem_iff_getElem?.mp ((h.isLive_iff key).mp hlive)

theorem prev?_eq_some_iff (key other : Key) :
    c.prev? other = some key ↔ c.next? key = some other := by
  constructor
  · intro hprev
    have hlive : (c.slot? other).isSome = true := by
      cases hslot : c.slot? other with
      | none => simp [prev?, hslot] at hprev
      | some slot => rfl
    obtain ⟨position, hposition⟩ := h.exists_getElem? hlive
    rw [h.prev?_of_getElem? hposition] at hprev
    split at hprev
    · cases hprev
    · rw [h.next?_of_getElem? hprev, Nat.sub_add_cancel (by omega), hposition]
  · intro hnext
    have hlive : (c.slot? key).isSome = true := by
      cases hslot : c.slot? key with
      | none => simp [next?, hslot] at hnext
      | some slot => rfl
    obtain ⟨position, hposition⟩ := h.exists_getElem? hlive
    rw [h.next?_of_getElem? hposition] at hnext
    rw [h.prev?_of_getElem? hnext, if_neg (Nat.succ_ne_zero _), Nat.add_sub_cancel, hposition]

theorem cursor_eq (steps : Nat) : c.cursor steps = l.keys[steps]? := by
  induction steps with
  | zero =>
      rw [cursor, h.first, Ledger.keys, List.getElem?_map, List.head?_eq_getElem?]
  | succ steps ih =>
      rw [cursor, ih]
      cases hkey : l.keys[steps]? with
      | none =>
          rw [List.getElem?_eq_none_iff] at hkey
          rw [Option.bind_none, List.getElem?_eq_none (by omega)]
      | some key => exact h.next?_of_getElem? hkey

theorem walk_eq (count : Nat) : ∀ (position : Nat) (passed : List Key),
    position + count = l.keys.length →
    c.walk count l.keys[position]? passed = passed.reverse ++ l.keys.drop position := by
  induction count with
  | zero =>
      intro position passed hposition
      rw [walk, List.drop_eq_nil_of_le (by omega), List.append_nil]
  | succ count ih =>
      intro position passed hposition
      have hlt : position < l.keys.length := by omega
      have hkey := List.getElem?_eq_getElem hlt
      rw [hkey, walk, h.next?_of_getElem? hkey, ih (position + 1) _ (by omega),
        List.drop_eq_getElem_cons hlt, List.reverse_cons, List.append_assoc]
      rfl

theorem keys_eq : c.keys = l.keys := by
  have hfirst := h.cursor_eq 0
  rw [cursor] at hfirst
  rw [Chain.keys, hfirst, h.walk_eq c.size 0 [] (by rw [h.size]; simp [Ledger.keys])]
  rfl

theorem get?_eq (key : Key) : c.get? key = l.get? key := by
  rw [get?, h.slots, bind_value_slotIn]
  rfl

theorem toList_eq : c.toList = l.items := by
  have hitem : ∀ item ∈ l.items, (c.get? item.1).map (fun value => (item.1, value)) = some item := by
    intro item hitem
    have hkey : item.1 ∈ l.keys := List.mem_map_of_mem hitem
    obtain ⟨before, value, after, hsplit, hbefore, hafter⟩ := Ledger.exists_split h.nodup hkey
    have hvalue : value = item.2 := by
      rw [hsplit] at hitem
      rcases List.mem_append.mp hitem with hmem | hmem
      · exact absurd rfl (hbefore item hmem)
      · rcases List.mem_cons.mp hmem with heq | hmem
        · exact (congrArg Prod.snd heq).symm
        · exact absurd rfl (hafter item hmem)
    have hget : l.get? item.1 = some value := by
      have hget := @Ledger.get?_split _ before after item.1 value hbefore l.issued
      rwa [← hsplit] at hget
    rw [h.get?_eq, hget, hvalue]
    rfl
  rw [toList, h.keys_eq, Ledger.keys, List.filterMap_map]
  calc l.items.filterMap ((fun key => (c.get? key).map fun value => (key, value)) ∘ (·.1))
      = l.items.filterMap some := List.filterMap_congr hitem
    _ = l.items := List.filterMap_some

/-- A chain shows the list that it stands for. -/
theorem shows : c.Shows l.items where
  keys := h.keys_eq
  nodup := h.keys_eq ▸ h.nodup
  live := fun key => by rw [h.isLive_iff, h.keys_eq]
  toList := h.toList_eq
  get := h.get?_eq
  cursor := fun steps => by rw [h.cursor_eq, h.keys_eq]
  next := fun position key hposition => by
    rw [h.keys_eq] at hposition ⊢
    exact h.next?_of_getElem? hposition
  prev := h.prev?_eq_some_iff
  first := by rw [h.first, h.keys_eq, Ledger.keys, List.head?_map]
  last := by rw [h.last, h.keys_eq, Ledger.keys, List.getLast?_map, lastKeyOf, Option.or_none]
  size := h.size
  free := by
    refine ⟨h.free.nodup, fun position => ?_⟩
    rw [h.free.mem_iff]
    constructor
    · rintro ⟨generation, hstamp⟩
      obtain ⟨slot, hslot, heq⟩ := Option.map_eq_some_iff.mp hstamp
      refine ⟨slot, hslot, ?_⟩
      simpa using (Prod.mk.inj heq).2
    · rintro ⟨slot, hslot, hvalue⟩
      exact ⟨slot.generation, by simp [stamp?, hslot, hvalue]⟩

end Represents

theorem calls_append (c : Chain α) (first second : List (Call α)) :
    (c.calls (first ++ second)).2 = ((c.calls first).2.calls second).2 := by
  induction first generalizing c with
  | nil => rfl
  | cons call first ih => exact ih (c.call call).2

end Chain

/-! ## Keys that were given out -/

namespace Ledger

variable {l l' : Ledger α} {calls : List (Call α)} {replies : List (Reply α)}

/-- A call remembers the key that it gives out, and no other. -/
theorem issued_call (fresh : Key) (l : Ledger α) (call : Call α) :
    (l.call fresh call).2.issued = (l.call fresh call).1.key?.toList ++ l.issued := by
  cases call with
  | push => rfl
  | insertAfter =>
      simp only [Ledger.call]
      split <;> rfl
  | remove key => simp only [Ledger.call]; cases l.get? key <;> rfl
  | modify key => simp only [Ledger.call]; cases l.get? key <;> rfl

/-- After a call there is no key that was not there before, but the one that was given out. -/
theorem mem_keys_call {fresh : Key} {call : Call α} {key : Key}
    (h : key ∈ (l.call fresh call).2.keys) :
    key ∈ l.keys ∨ (l.call fresh call).1.key? = some key := by
  cases call with
  | push value =>
      simp only [Ledger.call, keys, List.map_append, List.mem_append] at h
      rcases h with h | h
      · exact .inl h
      · cases List.mem_singleton.mp h
        exact .inr rfl
  | insertAfter after value =>
      simp only [Ledger.call] at h ⊢
      split at h
      · rename_i hmem
        rw [if_pos hmem]
        simp only [keys, List.mem_map, List.mem_flatMap] at h
        obtain ⟨item, ⟨old, hold, hitem⟩, rfl⟩ := h
        split at hitem
        · rcases List.mem_cons.mp hitem with rfl | hitem
          · exact .inl (List.mem_map_of_mem hold)
          · cases List.mem_singleton.mp hitem
            exact .inr rfl
        · cases List.mem_singleton.mp hitem
          exact .inl (List.mem_map_of_mem hold)
      · exact .inl h
  | remove removed =>
      obtain ⟨item, hitem, rfl⟩ := List.mem_map.mp h
      exact .inl (List.mem_map_of_mem (List.mem_of_mem_filter hitem))
  | modify changed f =>
      obtain ⟨item, hitem, rfl⟩ := List.mem_map.mp h
      obtain ⟨old, hold, rfl⟩ := List.mem_map.mp hitem
      left
      have hsame : (if old.1 = changed then (changed, f old.2) else old).1 = old.1 := by
        split
        · exact Eq.symm ‹_›
        · rfl
      rw [hsame]
      exact List.mem_map_of_mem hold

/-- All keys that were given out are remembered. -/
theorem Runs.issued_eq (h : l.Runs calls replies l') :
    l'.issued = (replies.filterMap Reply.key?).reverse ++ l.issued := by
  induction h with
  | nil => rfl
  | @cons l l' fresh call calls replies hfresh h ih =>
      rw [ih, issued_call, List.filterMap_cons]
      cases (l.call fresh call).1.key? <;> simp

/-- A key that was given out and is not there any more never comes back. -/
theorem Runs.notMem_keys (h : l.Runs calls replies l') {key : Key} (hissued : key ∈ l.issued)
    (hgone : key ∉ l.keys) : key ∉ l'.keys := by
  induction h with
  | nil => exact hgone
  | @cons l l' fresh call calls replies hfresh h ih =>
      refine ih ?_ ?_
      · rw [issued_call]
        exact List.mem_append_right _ hissued
      · intro hmem
        rcases mem_keys_call hmem with hmem | hnew
        · exact hgone hmem
        · exact hfresh key hnew hissued

end Ledger

end GscAssembler.Code
