import GscAssembler.Proofs.Code.LastingKeys
import GscAssembler.Proofs.Code.Layout

/-!
# Functions in the making

A function under construction is changed by `Edit`s: locals are declared, instructions are added,
inserted and removed, jumps get their targets, and loops are opened and closed, in any order.

Whatever is done to a function, its chain stands for a ledger of instructions (`Stands`) whose first
item is the declaration of the locals that the function was created with, no local is declared twice,
and the ledger only ever forgets keys for good (`Ledger.Later`).  One edit keeps this (`Stands.edit`),
and so does any number of them (`Stands.edits`).
-/

namespace GscAssembler.Code

variable {α : Type}

/-! ## Edits -/

/-- A change of a function under construction. -/
inductive Edit where
  /-- Declares a local. -/
  | declare (hash : UInt32)
  /-- Appends an instruction. -/
  | add (i : Instruction)
  /-- Inserts an instruction directly behind another. -/
  | insert (after : Key) (i : Instruction)
  /-- Takes an instruction out. -/
  | remove (key : Key)
  /-- Lets a jump land directly behind an instruction. -/
  | setTarget (jump after : Key)
  /-- Opens a loop or switch. -/
  | enterLoop
  /-- Appends a jump out of, or to the next round of, a loop. -/
  | loopJump (kind : LoopJump) (levels : Nat)
  /-- Closes the innermost loop or switch. -/
  | exitLoop (header : Option Key) (footer : Key)
  /-- Reserves a variable for a switch. -/
  | reserveSwitch (hash : UInt32)
  /-- Takes the variable of a switch. -/
  | takeSwitch
  /-- Reserves the variables of a loop over an array. -/
  | reserveForeach (locals : ForeachLocals)
  /-- Takes the variables of a loop over an array. -/
  | takeForeach
  deriving DecidableEq, Repr

namespace ScriptFunction

/-- What an edit makes of a function.  One that is refused leaves it as it is, but for the jumps that a
closed scope settled before it failed. -/
def edit (f : ScriptFunction) : Edit → ScriptFunction
  | .declare hash => f.addLocal hash
  | .add i => (f.add i).2
  | .insert after i => (f.insert after i).2
  | .remove key => (f.remove key).2
  | .setTarget jump after => f.setTarget jump after
  | .enterLoop => f.enterLoop
  | .loopJump kind levels => (f.addLoopJump kind levels).toOption.elim f (·.2)
  | .exitLoop header footer => (f.exitLoop header footer).2
  | .reserveSwitch hash => f.pushSwitchKey hash
  | .takeSwitch => f.popSwitchKey.toOption.elim f (·.2)
  | .reserveForeach locals => f.pushForeachLocals locals
  | .takeForeach => f.popForeachLocals.toOption.elim f (·.2)

/-- What several edits make of a function. -/
def edits (f : ScriptFunction) (changes : List Edit) : ScriptFunction :=
  changes.foldl edit f

theorem edits_append (f : ScriptFunction) (first second : List Edit) :
    f.edits (first ++ second) = (f.edits first).edits second :=
  List.foldl_append

end ScriptFunction

/-! ## Ledgers that follow another -/

namespace Ledger

/-- Whether a ledger comes after another: it knows all keys that were given out before, and none that
was gone is back. -/
structure Later (l l' : Ledger α) : Prop where
  issued : ∀ key ∈ l.issued, key ∈ l'.issued
  gone : ∀ key ∈ l.issued, key ∉ l.keys → key ∉ l'.keys

theorem Later.refl (l : Ledger α) : l.Later l :=
  ⟨fun _ h => h, fun _ _ h => h⟩

theorem Later.trans {l₁ l₂ l₃ : Ledger α} (h : l₁.Later l₂) (h' : l₂.Later l₃) : l₁.Later l₃ :=
  ⟨fun key hkey => h'.issued key (h.issued key hkey),
    fun key hkey hgone => h'.gone key (h.issued key hkey) (h.gone key hkey hgone)⟩

theorem later_call {l : Ledger α} {fresh : Key} {call : Call α}
    (hfresh : ∀ key, (l.call fresh call).1.key? = some key → key ∉ l.issued) :
    l.Later (l.call fresh call).2 := by
  refine ⟨fun key hkey => ?_, fun key hkey hgone => ?_⟩
  · rw [issued_call]
    exact List.mem_append_right _ hkey
  · exact (Runs.cons hfresh (.nil _)).notMem_keys hkey hgone

end Ledger

/-- Whether a call lets the declaration of the locals, which has the key `head`, be as it is. -/
def Call.Spares (head : Key) : Call Instruction → Prop
  | .push _ | .insertAfter _ _ => True
  | .remove key => key ≠ head
  | .modify _ f => f .locals = .locals

/-- A call that spares the first item lets it be the first. -/
theorem Ledger.head?_call {l : Ledger Instruction} {head fresh : Key} {call : Call Instruction}
    (hhead : l.items.head? = some (head, .locals)) (hspares : call.Spares head) :
    (l.call fresh call).2.items.head? = some (head, .locals) := by
  obtain ⟨rest, hitems⟩ := List.head?_eq_some_iff.mp hhead
  cases call with
  | push value => simp [Ledger.call, hitems]
  | insertAfter after value =>
      simp only [Ledger.call, hitems]
      split
      · rw [List.flatMap_cons]
        split <;> rfl
      · exact hhead
  | remove key =>
      have hne : head ≠ key := fun heq => hspares heq.symm
      simp [Ledger.call, hitems, hne]
  | modify key f =>
      simp only [Ledger.call, hitems, List.map_cons, List.head?_cons]
      split
      · rename_i hkey
        rw [← hkey, show f Instruction.locals = .locals from hspares]
      · rfl

/-- Whether a call only adds to a list. -/
def Call.Grows : Call α → Prop
  | .push _ | .insertAfter _ _ => True
  | .remove _ | .modify _ _ => False

theorem Ledger.mem_items_call {l : Ledger α} {fresh : Key} {call : Call α} (hgrows : call.Grows)
    {item : Key × α} (h : item ∈ l.items) : item ∈ (l.call fresh call).2.items := by
  cases call with
  | push value => exact List.mem_append_left _ h
  | insertAfter after value =>
      simp only [Ledger.call]
      split
      · refine List.mem_flatMap.mpr ⟨item, h, ?_⟩
        split <;> exact List.mem_cons_self ..
      · exact h
  | remove key => cases hgrows
  | modify key f => cases hgrows

/-! ## What every function stands for -/

namespace ScriptFunction

theorem get?_of_mem_instructions {f : ScriptFunction} {key : Key} {i : Instruction}
    (h : (key, i) ∈ f.instructions) : f.get? key = some i := by
  obtain ⟨key', -, hget⟩ := List.mem_filterMap.mp h
  obtain ⟨i', hget', heq⟩ := Option.map_eq_some_iff.mp hget
  cases heq
  exact hget'

/-- Whether a function stands for a ledger of instructions that starts with the declaration of its
locals, none of which is declared twice. -/
structure Stands (f : ScriptFunction) (l : Ledger Instruction) : Prop where
  represents : f.chain.Represents l
  head : f.head = ⟨0, 0⟩
  first : l.items.head? = some (f.head, .locals)
  nodup : f.locals.toList.Nodup

namespace Stands

variable {f g : ScriptFunction} {l : Ledger Instruction}

theorem of_eq (h : f.Stands l) (hchain : g.chain = f.chain) (hhead : g.head = f.head)
    (hlocals : g.locals = f.locals) : g.Stands l :=
  ⟨hchain ▸ h.represents, hhead ▸ h.head, hhead ▸ h.first, hlocals ▸ h.nodup⟩

/-- What a call on the chain of a function makes of it. -/
theorem call (h : f.Stands l) (call : Call Instruction) (hspares : call.Spares f.head)
    (hchain : g.chain = (f.chain.call call).2) (hhead : g.head = f.head)
    (hlocals : g.locals = f.locals) : ∃ l', l.Later l' ∧ g.Stands l' := by
  obtain ⟨fresh, hfresh, -, hnext⟩ := h.represents.call call
  refine ⟨_, Ledger.later_call hfresh, ⟨hchain ▸ hnext, hhead ▸ h.head, ?_, hlocals ▸ h.nodup⟩⟩
  rw [hhead]
  exact Ledger.head?_call h.first hspares

theorem addLocal (h : f.Stands l) (hash : UInt32) : (f.addLocal hash).Stands l := by
  unfold ScriptFunction.addLocal
  split
  · exact h
  · rename_i hnew
    refine ⟨h.represents, h.head, h.first, ?_⟩
    rw [Array.toList_push, ← List.concat_eq_append, List.nodup_concat]
    exact ⟨by simpa [hasLocal] using hnew, h.nodup⟩

theorem setTarget (h : f.Stands l) (jump after : Key) :
    ∃ l', l.Later l' ∧ (f.setTarget jump after).Stands l' :=
  h.call (.modify jump (Instruction.retarget after)) rfl rfl rfl rfl

/-- Settling the jumps of a closed scope, one by one. -/
theorem settle (header : Option Key) (footer : Key) (pending : List PendingJump) (f : ScriptFunction) :
    ∀ {l}, f.Stands l → ∃ l', l.Later l' ∧ (settle header footer pending f).2.Stands l' := by
  fun_induction ScriptFunction.settle header footer pending f with
  | case1 f => exact fun {l} h => ⟨l, .refl l, h⟩
  | case2 header jump rest f ih =>
      intro l h
      obtain ⟨l₁, hlater₁, h₁⟩ := h.setTarget jump footer
      obtain ⟨l₂, hlater₂, h₂⟩ := ih h₁
      exact ⟨l₂, hlater₁.trans hlater₂, h₂⟩
  | case3 jump rest f header ih =>
      intro l h
      obtain ⟨l₁, hlater₁, h₁⟩ := h.setTarget jump header
      obtain ⟨l₂, hlater₂, h₂⟩ := ih h₁
      exact ⟨l₂, hlater₁.trans hlater₂, h₂⟩
  | case4 jump rest f outer scopes hscopes ih => exact fun {l} h => ih (h.of_eq rfl rfl rfl)
  | case5 jump rest f hscopes => exact fun {l} h => ⟨l, .refl l, h⟩

/-- One edit. -/
theorem edit (h : f.Stands l) (e : Edit) : ∃ l', l.Later l' ∧ (f.edit e).Stands l' := by
  cases e with
  | declare hash => exact ⟨l, .refl l, h.addLocal hash⟩
  | add i => exact h.call (.push i) trivial rfl rfl rfl
  | insert after i => exact h.call (.insertAfter after i) trivial rfl rfl rfl
  | remove key =>
      by_cases hkey : key = f.head
      · refine ⟨l, .refl l, ?_⟩
        simpa [ScriptFunction.edit, ScriptFunction.remove, hkey] using h
      · refine h.call (.remove key) hkey ?_ ?_ ?_ <;>
          simp [ScriptFunction.edit, ScriptFunction.remove, hkey, Chain.call]
  | setTarget jump after => exact h.setTarget jump after
  | enterLoop => exact ⟨l, .refl l, h.of_eq rfl rfl rfl⟩
  | loopJump kind levels =>
      simp only [ScriptFunction.edit, addLoopJump]
      split
      · exact ⟨l, .refl l, h⟩
      · exact h.call (.push (.jump .jump none)) trivial rfl rfl rfl
  | exitLoop header footer =>
      simp only [ScriptFunction.edit, exitLoop]
      split
      · exact ⟨l, .refl l, h⟩
      · exact settle header footer _ _ (h.of_eq rfl rfl rfl)
  | reserveSwitch hash => exact ⟨l, .refl l, h.of_eq rfl rfl rfl⟩
  | takeSwitch =>
      refine ⟨l, .refl l, ?_⟩
      simp only [ScriptFunction.edit, popSwitchKey]
      split
      · exact h
      · exact h.of_eq rfl rfl rfl
  | reserveForeach locals => exact ⟨l, .refl l, h.of_eq rfl rfl rfl⟩
  | takeForeach =>
      refine ⟨l, .refl l, ?_⟩
      simp only [ScriptFunction.edit, popForeachLocals]
      split
      · exact h
      · exact h.of_eq rfl rfl rfl

/-- Several edits. -/
theorem edits (changes : List Edit) :
    ∀ {f : ScriptFunction} {l : Ledger Instruction}, f.Stands l →
      ∃ l', l.Later l' ∧ (f.edits changes).Stands l' := by
  induction changes with
  | nil => exact fun {f l} h => ⟨l, .refl l, h⟩
  | cons e changes ih =>
      intro f l h
      obtain ⟨l₁, hlater₁, h₁⟩ := h.edit e
      obtain ⟨l₂, hlater₂, h₂⟩ := ih h₁
      exact ⟨l₂, hlater₁.trans hlater₂, h₂⟩

theorem instructions_eq (h : f.Stands l) : f.instructions = l.items :=
  h.represents.toList_eq

theorem head?_instructions (h : f.Stands l) : f.instructions.head? = some (f.head, .locals) := by
  rw [h.instructions_eq, h.first]

theorem get?_eq_some_iff (h : f.Stands l) {key : Key} {i : Instruction} :
    f.get? key = some i ↔ (key, i) ∈ l.items := by
  constructor
  · intro hget
    have hlive : f.chain.isLive key = true := by
      rw [Chain.isLive]
      cases hslot : f.chain.slot? key with
      | none => simp [ScriptFunction.get?, Chain.get?, hslot] at hget
      | some slot => rfl
    obtain ⟨item, hitem, rfl⟩ := List.mem_map.mp ((h.represents.isLive_iff key).mp hlive)
    rw [get?_of_mem_instructions (i := item.2) (h.instructions_eq ▸ hitem)] at hget
    cases hget
    exact hitem
  · intro hitem
    exact get?_of_mem_instructions (h.instructions_eq ▸ hitem)

/-- A call that only adds lets every instruction be as it is. -/
theorem get?_of_grows (h : f.Stands l) (call : Call Instruction) (hgrows : call.Grows)
    (hg : g.chain = (f.chain.call call).2) {key : Key} {i : Instruction} (hget : f.get? key = some i) :
    g.get? key = some i := by
  obtain ⟨fresh, -, -, hnext⟩ := h.represents.call call
  apply get?_of_mem_instructions
  rw [instructions, hg, hnext.toList_eq]
  exact Ledger.mem_items_call hgrows (h.get?_eq_some_iff.mp hget)

/-- An instruction that is added has a key that was never given out before. -/
theorem get?_add (h : f.Stands l) (i : Instruction) :
    f.get? (f.add i).1 = none ∧ (f.add i).2.get? (f.add i).1 = some i := by
  obtain ⟨fresh, hfresh, hreply, hnext⟩ := h.represents.call (.push i)
  have hkey : (f.add i).1 = fresh := by simpa [Chain.call, Ledger.call, add] using hreply
  constructor
  · rw [Option.eq_none_iff_forall_ne_some]
    intro j hj
    have hitem := h.get?_eq_some_iff.mp hj
    rw [hkey] at hitem
    exact hfresh fresh rfl (h.represents.keys_issued _ (List.mem_map_of_mem hitem))
  · apply get?_of_mem_instructions
    have hchain : (f.add i).2.chain = (f.chain.call (.push i)).2 := rfl
    rw [instructions, hchain, hnext.toList_eq, hkey]
    exact List.mem_append_right _ (List.mem_cons_self ..)

end Stands

/-- A new function stands for the declaration of its locals. -/
theorem exists_stands_create (target : Target) (name : String) (hash namespaceHash : UInt32)
    (params flags : UInt8) :
    ∃ l, (create target name hash namespaceHash params flags).Stands l := by
  obtain ⟨fresh, -, hreply, h⟩ := Chain.represents_empty.call (.push Instruction.locals)
  refine ⟨_, h, rfl, ?_, List.nodup_nil⟩
  have hfresh : (Chain.empty.push Instruction.locals).1 = fresh := by
    simpa [Chain.call, Ledger.call] using hreply
  simp only [Ledger.call, List.nil_append, List.head?_cons, ← hfresh]
  rfl

end ScriptFunction

end GscAssembler.Code
