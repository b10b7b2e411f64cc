import GscAssembler.Proofs.Code.ChainSlots
import GscAssembler.Proofs.Lowering.Outcome
import GscAssembler.Proofs.Reference.Index

/-!
# Where the hashes of a script come from

A vocabulary *has* a function or a script if it has every hash of a name that is stored there: in the
exports, in the tables, among the locals and in instructions.  Steps that use only names and hashes of
the vocabulary keep that (`Step.has`), and hashing gives hashes of the vocabulary, if that has what the
script remembers in the end (`Step.yields`).  Both together carry a vocabulary through all of lowering
(`Composed.has`).
-/

namespace GscAssembler.Lowering

open Code (Chain Instruction Key PendingJump ScriptFunction)
open Name (Registry)
open Reference (Table Tables)

variable {α β : Type} {given : Prop} {v : Vocabulary}

namespace Vocabulary

/-! ## What a vocabulary has -/

/-- Whether a vocabulary has the hash that stands in an instruction, if one does. -/
def HasInstruction (v : Vocabulary) : Instruction → Prop
  | .field _ name => v.hashes name.toUInt64
  | .hash value => v.values value
  | _ => True

/-- Whether a vocabulary has the hashes of a function. -/
structure HasFunction (v : Vocabulary) (f : ScriptFunction) : Prop where
  /-- The hash of its name. -/
  hash : v.hashes f.hash.toUInt64
  /-- The hash of its namespace. -/
  namespaceHash : v.hashes f.namespaceHash.toUInt64
  /-- The hashes of its locals. -/
  locals : ∀ name ∈ f.locals, v.hashes name.toUInt64
  /-- The hashes in its instructions. -/
  code : f.chain.All v.HasInstruction

/-- Whether a vocabulary has the hashes of the tables. -/
structure HasTables (v : Vocabulary) (t : Tables) : Prop where
  /-- The hashes of the imports. -/
  imports : ∀ key ∈ t.imports.values,
    v.hashes key.function.toUInt64 ∧ v.hashes key.namespaceHash.toUInt64
  /-- The hashes of the global objects. -/
  globals : ∀ name ∈ t.globals.values, v.hashes name.toUInt64
  /-- The hashes of the developer strings. -/
  debug : ∀ text ∈ t.debug.values, v.hashes text.toUInt64

/-- Whether a vocabulary has the hashes of a script. -/
structure HasScript (v : Vocabulary) (s : Script) : Prop where
  /-- The hash of its namespace. -/
  namespaceHash : v.hashes s.namespaceHash.toUInt64
  /-- The hashes of its tables. -/
  tables : v.HasTables s.tables
  /-- The hashes of its functions. -/
  functions : s.functions.All v.HasFunction

/-- Whether a vocabulary has the hashes of a state. -/
structure Has (v : Vocabulary) (s : State) : Prop where
  /-- Those of the script. -/
  script : v.HasScript s.script
  /-- Those of the function. -/
  function : v.HasFunction s.function

/-- Whether a vocabulary has the hash of each of its names, as far as a registry remembers it. -/
structure Explains (v : Vocabulary) (revision : Revision) (names : Registry) : Prop where
  /-- The 32-bit hash. -/
  hash : ∀ {r r' : Registry} {name : String} {hash : UInt32}, v.texts name →
    r.hash revision name = .ok (hash, r') → r' ≤ names → v.hashes hash.toUInt64
  /-- The 64-bit hash. -/
  hash64 : ∀ {r r' : Registry} {name : String} {hash : UInt64}, v.texts name →
    r.hash64 revision name = .ok (hash, r') → r' ≤ names → v.hashes hash

/-! ## Functions and tables -/

namespace HasFunction

variable {f : ScriptFunction}

theorem add (h : v.HasFunction f) {i : Instruction} (hi : v.HasInstruction i) :
    v.HasFunction (f.add i).2 :=
  { h with code := h.code.push hi }

theorem addLocal (h : v.HasFunction f) {name : UInt32} (hname : v.hashes name.toUInt64) :
    v.HasFunction (f.addLocal name) := by
  unfold ScriptFunction.addLocal
  split
  · exact h
  · refine { h with locals := fun other hother => ?_ }
    rcases Array.mem_push.mp hother with hother | rfl
    · exact h.locals other hother
    · exact hname

theorem hasInstruction_retarget (after : Key) {i : Instruction} (h : v.HasInstruction i) :
    v.HasInstruction (i.retarget after) := by
  cases i <;> exact h

theorem setTarget (h : v.HasFunction f) (jump after : Key) : v.HasFunction (f.setTarget jump after) :=
  { h with code := h.code.modify jump fun _ => hasInstruction_retarget after }

theorem settle (header : Option Key) (footer : Key) (pending : List PendingJump)
    (h : v.HasFunction f) : v.HasFunction (ScriptFunction.settle header footer pending f).2 := by
  fun_induction ScriptFunction.settle header footer pending f with
  | case1 f => exact h
  | case2 header jump rest f ih => exact ih (h.setTarget jump footer)
  | case3 jump rest f header ih => exact ih (h.setTarget jump header)
  | case4 jump rest f outer scopes hscopes ih => exact ih { h with }
  | case5 jump rest f hscopes => exact h

theorem exitLoop (h : v.HasFunction f) (header : Option Key) (footer : Key) :
    v.HasFunction (f.exitLoop header footer).2 := by
  unfold ScriptFunction.exitLoop
  split
  · exact h
  · exact settle header footer _ { h with }

end HasFunction

end Vocabulary

/-! ## Steps -/

/-- What steps give is in the vocabulary, if that has what is remembered afterwards. -/
theorem Step.yields {step : Step β} {s s' : State} {b : β} {names : Registry}
    (hv : v.Explains s.script.target.revision names) (h : step.run s = .ok (b, s'))
    (hnames : s'.script.names ≤ names) (hs : v.Has s) (hstep : step.Permitted v) :
    step.Yields v b := by
  cases step with
  | ownNamespace =>
      cases h
      exact hs.script.namespaceHash
  | hash name =>
      obtain ⟨names, hhash, rfl⟩ := Control.hashName_eq_ok.mp h
      exact hv.hash hstep hhash hnames
  | hash64 name =>
      obtain ⟨names, hhash, rfl⟩ := Control.hashName64_eq_ok.mp h
      exact hv.hash64 hstep hhash hnames
  | _ => trivial

/-- A step that uses only hashes of the vocabulary stores no others. -/
theorem Step.has {step : Step β} {s s' : State} {b : β} (h : step.run s = .ok (b, s'))
    (hs : v.Has s) (hstep : step.Permitted v) : v.Has s' := by
  obtain ⟨hscript, hfunction⟩ := hs
  cases step with
  | hash name =>
      obtain ⟨names, -, rfl⟩ := Control.hashName_eq_ok.mp h
      exact ⟨{ hscript with }, hfunction⟩
  | hash64 name =>
      obtain ⟨names, -, rfl⟩ := Control.hashName64_eq_ok.mp h
      exact ⟨{ hscript with }, hfunction⟩
  | addLocal name =>
      cases h
      exact ⟨hscript, hfunction.addLocal hstep⟩
  | reserve switches foreaches =>
      cases h
      exact ⟨hscript, { hfunction with }⟩
  | switchKey =>
      obtain ⟨f, hf, rfl⟩ := updateFunction_eq_ok.mp h
      unfold ScriptFunction.popSwitchKey at hf
      split at hf <;> cases hf
      exact ⟨hscript, { hfunction with }⟩
  | foreachLocals =>
      obtain ⟨f, hf, rfl⟩ := updateFunction_eq_ok.mp h
      unfold ScriptFunction.popForeachLocals at hf
      split at hf <;> cases hf
      exact ⟨hscript, { hfunction with }⟩
  | internString text =>
      cases h
      exact ⟨{ hscript with tables := { hscript.tables with } }, hfunction⟩
  | internDebugString text =>
      cases h
      refine ⟨{ hscript with tables := { hscript.tables with debug := fun other hother => ?_ } },
        hfunction⟩
      rcases Table.mem_values_add hother with hother | rfl
      · exact hscript.tables.debug other hother
      · exact hstep
  | internGlobal object =>
      cases h
      refine ⟨{ hscript with tables := { hscript.tables with globals := fun other hother => ?_ } },
        hfunction⟩
      rcases Table.mem_values_add hother with hother | rfl
      · exact hscript.tables.globals other hother
      · exact hstep
  | internImport key =>
      cases h
      refine ⟨{ hscript with tables := { hscript.tables with imports := fun other hother => ?_ } },
        hfunction⟩
      rcases Table.mem_values_add hother with hother | rfl
      · exact hscript.tables.imports other hother
      · exact hstep
  | emit i =>
      cases h
      refine ⟨hscript, hfunction.add ?_⟩
      cases i <;> trivial
  | number value =>
      rw [run] at h
      obtain ⟨f, hf, rfl⟩ := updateFunction_eq_ok.mp h
      obtain ⟨checked, -, hf⟩ := Control.except_bind_eq_ok.mp hf
      cases hf
      exact ⟨hscript, hfunction.add trivial⟩
  | eval name context =>
      rw [run] at h
      obtain ⟨f, hf, rfl⟩ := updateFunction_eq_ok.mp h
      cases hf
      exact ⟨hscript, hfunction.add trivial⟩
  | setTarget jump after =>
      cases h
      exact ⟨hscript, hfunction.setTarget jump after⟩
  | enterLoop =>
      cases h
      exact ⟨hscript, { hfunction with }⟩
  | loopJump kind levels =>
      rw [run] at h
      obtain ⟨f, hf, rfl⟩ := updateFunction_eq_ok.mp h
      unfold ScriptFunction.addLoopJump at hf
      dsimp only at hf
      split at hf <;> cases hf
      exact ⟨hscript, { hfunction.add (i := .jump .jump none) trivial with }⟩
  | exitLoop header footer =>
      rw [run] at h
      obtain ⟨f, hf, rfl⟩ := updateFunction_eq_ok.mp h
      have hexit := hfunction.exitLoop header footer
      split at hf
      case h_1 hresult =>
          cases hf
          rw [hresult] at hexit
          exact ⟨hscript, hexit⟩
      case h_2 => cases hf
  | _ =>
      cases h
      exact ⟨hscript, hfunction⟩

/-- Lowering that uses only names of the vocabulary stores only hashes of it. -/
theorem Composed.has {result : α → Prop} {x : Lower α} {names : Registry}
    (hx : Composed v result given x) {s s' : State} {a : α}
    (hv : v.Explains s.script.target.revision names) (h : x s = .ok (a, s'))
    (hnames : s'.script.names ≤ names) (hgiven : given) (hs : v.Has s) : v.Has s' := by
  induction hx generalizing s with
  | pure =>
      cases h
      exact hs
  | throw => cases h
  | @step _ _ first rest hfirst hrest ih =>
      obtain ⟨b, s₁, hrun, hlater⟩ := Control.exists_of_bind_eq_ok h
      have hgrows : s₁.script.names ≤ s'.script.names :=
        (hrest b).relates (fun s t => s.script.names ≤ t.script.names)
          (fun _ => Registry.le_refl _) Registry.le_trans Step.names_le hlater
      have hyields := first.yields hv hrun (Registry.le_trans hgrows hnames) hs (hfirst hgiven)
      have htarget : s₁.script.target = s.script.target := by rw [first.script_eq hrun]; rfl
      exact ih b (htarget ▸ hv) hlater ⟨hgiven, hyields⟩ (first.has hrun hs (hfirst hgiven))

end GscAssembler.Lowering
