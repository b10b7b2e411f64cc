import GscAssembler.Proofs.Code.LocalIndices
import GscAssembler.Proofs.Lowering.Occurrences
import GscAssembler.Proofs.Lowering.Termination

/-!
# The locals of parameters

A function hands on the number of its parameters, and whoever calls it puts the arguments into as many
of the first locals.  Lowering only edits a function, and the first edits declare the parameters.  So
they come first among the locals, whatever is declared later (`parameters_first_locals`).

What is declared twice is one local, also if it is a parameter.  So the first locals are the parameters
if their names have different hashes, and only then.
-/

namespace GscAssembler

open Code (Edit Key ScriptFunction)
open Control (parametersOf startOf)
open SyntaxTree (Node)

/-! ## Lists without repetition -/

theorem nodup_eraseDups (l : List UInt32) : l.eraseDups.Nodup := by
  induction l using List.reverseRecOn with
  | nil => simp
  | append_singleton l a ih =>
      rw [List.eraseDups_append]
      by_cases ha : a ∈ l
      · simpa [List.removeAll, ha] using ih
      · have hapart : ∀ b ∈ l, b ≠ a := fun b hb heq => ha (heq ▸ hb)
        simpa [List.removeAll, ha, List.eraseDups_cons, List.nodup_append, ih] using hapart

theorem eraseDups_of_nodup {l : List UInt32} (h : l.Nodup) : l.eraseDups = l := by
  induction l with
  | nil => rfl
  | cons a l ih =>
      obtain ⟨ha, hl⟩ := List.nodup_cons.mp h
      have hfilter : l.filter (fun b => !b == a) = l :=
        List.filter_eq_self.mpr fun b hb => by simpa using fun heq : b = a => ha (heq ▸ hb)
      rw [List.eraseDups_cons, hfilter, ih hl]

/-! ## Lowering edits a function -/

theorem Code.ScriptFunction.params_edits (changes : List Edit) (f : ScriptFunction) :
    (f.edits changes).params = f.params :=
  congrArg Prod.snd (target_params_edits changes f)

/-- Variables are reserved one by one. -/
theorem Code.ScriptFunction.edits_reserve (switches : List UInt32) (foreaches : List Code.ForeachLocals)
    (f : ScriptFunction) :
    f.edits (switches.reverse.map .reserveSwitch ++ foreaches.reverse.map .reserveForeach) =
      { f with
        switchKeys := switches ++ f.switchKeys
        foreachKeys := foreaches ++ f.foreachKeys } := by
  simp only [edits, List.foldl_append, List.foldl_map, List.foldl_reverse]
  have hswitches : switches.foldr (fun hash f => edit f (.reserveSwitch hash)) f =
      { f with switchKeys := switches ++ f.switchKeys } := by
    induction switches with
    | nil => rfl
    | cons hash rest ih => rw [List.foldr_cons, ih]; rfl
  rw [hswitches]
  induction foreaches with
  | nil => rfl
  | cons locals rest ih => rw [List.foldr_cons, ih]; rfl

namespace Lowering

variable {β : Type} {s s' : State}

/-- Each step edits the function. -/
theorem Step.exists_edits {step : Step β} {b : β} (h : step.run s = .ok (b, s')) :
    ∃ changes, s'.function = s.function.edits changes := by
  cases step with
  | addLocal hash =>
      cases h
      exact ⟨[.declare hash], rfl⟩
  | reserve switches foreaches =>
      cases h
      exact ⟨_, (s.function.edits_reserve switches foreaches).symm⟩
  | hash name =>
      obtain ⟨names, -, rfl⟩ := Control.hashName_eq_ok.mp h
      exact ⟨[], rfl⟩
  | hash64 name =>
      obtain ⟨names, -, rfl⟩ := Control.hashName64_eq_ok.mp h
      exact ⟨[], rfl⟩
  | switchKey =>
      obtain ⟨f, hf, rfl⟩ := updateFunction_eq_ok.mp h
      exact ⟨[.takeSwitch], by simp [ScriptFunction.edits, ScriptFunction.edit, hf, Except.toOption]⟩
  | foreachLocals =>
      obtain ⟨f, hf, rfl⟩ := updateFunction_eq_ok.mp h
      exact ⟨[.takeForeach], by simp [ScriptFunction.edits, ScriptFunction.edit, hf, Except.toOption]⟩
  | emit i =>
      cases h
      exact ⟨[.add i], rfl⟩
  | number value =>
      rw [run] at h
      obtain ⟨f, hf, rfl⟩ := updateFunction_eq_ok.mp h
      obtain ⟨checked, -, hf⟩ := Control.except_bind_eq_ok.mp hf
      cases hf
      exact ⟨[.add (.number checked)], rfl⟩
  | eval hash context =>
      rw [run] at h
      obtain ⟨f, hf, rfl⟩ := updateFunction_eq_ok.mp h
      cases hf
      exact ⟨[.add _], rfl⟩
  | setTarget jump after =>
      cases h
      exact ⟨[.setTarget jump after], rfl⟩
  | enterLoop =>
      cases h
      exact ⟨[.enterLoop], rfl⟩
  | loopJump kind levels =>
      rw [run] at h
      obtain ⟨f, hf, rfl⟩ := updateFunction_eq_ok.mp h
      exact ⟨[.loopJump kind levels],
        by simp [ScriptFunction.edits, ScriptFunction.edit, hf, Except.toOption]⟩
  | exitLoop header footer =>
      rw [run] at h
      obtain ⟨f, hf, rfl⟩ := updateFunction_eq_ok.mp h
      refine ⟨[.exitLoop header footer], ?_⟩
      change f = (s.function.exitLoop header footer).2
      cases hexit : s.function.exitLoop header footer with
      | mk error f' =>
          rw [hexit] at hf
          cases error <;> cases hf
          rfl
  | _ =>
      cases h
      exact ⟨[], rfl⟩

/-- So does all that is made of steps. -/
theorem Orderly.exists_edits {α : Type} [Wording α] {given : Prop} {v : Vocabulary} {x : Lower α}
    (hx : Orderly given v x) {a : α} (h : x s = .ok (a, s')) :
    ∃ changes, s'.function = s.function.edits changes := by
  refine hx.composed.relates (fun s t => ∃ changes, t.function = s.function.edits changes)
    (fun s => ⟨[], rfl⟩) ?_ Step.exists_edits h
  rintro s t u ⟨first, hfirst⟩ ⟨second, hsecond⟩
  exact ⟨first ++ second, by rw [hsecond, hfirst, ScriptFunction.edits_append]⟩

/-! ## Declaring the parameters -/

theorem liftM_eq_ok {α : Type} {x : Except CompileError α} {a : α} :
    (liftM x : Lower α) s = .ok (a, s') ↔ x = .ok a ∧ s = s' := by
  change (x >>= fun a => .ok (a, s)) = _ ↔ _
  cases x with
  | error e => simp [bind, Except.bind]
  | ok b => simp [bind, Except.bind]

/-- The hash of a parameter's name. -/
def parameterHash? (revision : Revision) (parameter : Node) : Option UInt32 :=
  parameter.text?.bind (Name.hash? revision)

/-- The parameters are declared in order, by the hashes of their names. -/
theorem exists_of_declareParameters {parameters : List Node} :
    ∀ {s s' : State} {defaults : List (UInt32 × Node)},
      declareParameters parameters s = .ok (defaults, s') →
      ∃ hashes : List UInt32,
        parameters.map (parameterHash? s.script.target.revision) = hashes.map some ∧
        s'.function = s.function.edits (hashes.map .declare) := by
  induction parameters with
  | nil =>
      intro s s' defaults h
      cases h
      exact ⟨[], rfl, rfl⟩
  | cons parameter rest ih =>
      intro s s' defaults h
      obtain ⟨name, s₁, htext, h⟩ := Control.exists_of_bind_eq_ok h
      obtain ⟨hash, s₂, hdeclare, h⟩ := Control.exists_of_bind_eq_ok h
      obtain ⟨others, s₃, hothers, hreturn⟩ := Control.exists_of_bind_eq_ok h
      obtain ⟨hname, rfl⟩ := liftM_eq_ok.mp htext
      obtain ⟨names, hnames, rfl⟩ := Control.declare_eq_ok.mp hdeclare
      obtain ⟨hashes, hrest, hfunction⟩ := ih hothers
      have hs' : s' = s₃ := by
        cases hchildren : parameter.children <;> rw [hchildren] at hreturn <;> cases hreturn <;> rfl
      have hhash : parameterHash? s.script.target.revision parameter = some hash := by
        rw [parameterHash?, text?_of_text hname]
        exact Name.hash?_of_hash hnames
      refine ⟨hash :: hashes, ?_, ?_⟩
      · rw [List.map_cons, hhash, List.map_cons, ← hrest]
        rfl
      · rw [hs', hfunction]
        rfl

theorem length_parametersOf_le {n body : Node} {script : Script}
    (h : startOf n script = .ok (body, s)) : (parametersOf n).length ≤ maxParameters := by
  obtain ⟨name, -, h⟩ := Control.except_bind_eq_ok.mp h
  cases hbody : n.findChild? "block" with
  | none => rw [hbody] at h; cases h
  | some block =>
      rw [hbody] at h
      obtain ⟨_, hcount, -⟩ := Control.except_bind_eq_ok.mp h
      unfold requireAtMost at hcount
      split at hcount
      · cases hcount
      · omega

/-- What is lowered once the parameters are declared edits the function, too. -/
theorem orderly_behindParameters (table : MacroTable) (defaults : List (UInt32 × Node))
    (body : Node) : Orderly True (.all (Cyclic table)) (do
      collectLocals body
      defaults.forM fun p => defaultParameter p.1 (lowerNode (macrosOf table) p.2 .plain)
      lowerNode (macrosOf table) body .plain
      emitOp .endFunction) := by
  have hnode (n : Node) : Orderly True (.all (Cyclic table)) (lowerNode (macrosOf table) n .plain) := by
    rw [← macrosDuring_nil]
    exact orderly_lowerNode_of_path (path_nil table n) .plain
  infer_instance

/-- A lowered function is one whose parameters were declared first, and that was edited since. -/
theorem exists_edits_of_lowerFunction {table : MacroTable} {n : Node} {script script' : Script}
    {f : ScriptFunction} (h : lowerFunction (macrosOf table) n script = .ok (f, script')) :
    ∃ name hash, ∃ (hashes : List UInt32) (changes : List Edit),
      (parametersOf n).length ≤ maxParameters ∧
      (parametersOf n).map (parameterHash? script.target.revision) = hashes.map some ∧
      f = (ScriptFunction.create script.target name hash script.namespaceHash
        (UInt8.ofNat (parametersOf n).length) (exportFlags n)).edits
          (hashes.map .declare ++ changes) := by
  rw [Control.lowerFunction_eq] at h
  obtain ⟨⟨body, s⟩, hstart, h⟩ := Control.except_bind_eq_ok.mp h
  obtain ⟨⟨_, final⟩, hrun, hresult⟩ := Control.except_bind_eq_ok.mp h
  cases hresult
  obtain ⟨defaults, s₁, hparameters, hrest⟩ := Control.exists_of_bind_eq_ok hrun
  obtain ⟨hashes, hhashes, hdeclared⟩ := exists_of_declareParameters hparameters
  obtain ⟨changes, hchanges⟩ := (orderly_behindParameters table defaults body).exists_edits hrest
  obtain ⟨name, hash, names, -, -, -, rfl⟩ := Control.startOf_eq_ok hstart
  refine ⟨Text.asciiLower name, hash, hashes, changes, length_parametersOf_le hstart, hhashes, ?_⟩
  rw [hchanges, hdeclared, ScriptFunction.edits_append]

end Lowering

open Lowering

/-- Parameters come first among the locals.  A lowered function hands on the number of its parameters,
their names have hashes, and its locals are those hashes and whatever is declared later, each once and
where it was declared first.  So the first locals are the parameters, in order and one for each, if and
only if no two of their names have the same hash. -/
theorem parameters_first_locals {table : MacroTable} {n : Node} {script script' : Script}
    {f : ScriptFunction} (h : lowerFunction (macrosOf table) n script = .ok (f, script')) :
    f.params.toNat = (parametersOf n).length ∧ ∃ hashes later : List UInt32,
      (parametersOf n).map (parameterHash? script.target.revision) = hashes.map some ∧
      f.locals.toList = (hashes ++ later).eraseDups ∧ f.locals.toList.Nodup ∧
      hashes.eraseDups <+: f.locals.toList ∧
      (f.locals.toList.take (parametersOf n).length = hashes ↔ hashes.Nodup) := by
  obtain ⟨name, hash, hashes, changes, hcount, hhashes, hf⟩ := exists_edits_of_lowerFunction h
  have hlocals : f.locals.toList =
      (hashes ++ changes.filterMap Edit.declared?).eraseDups := by
    rw [hf, ScriptFunction.toList_edits _ _ [] rfl, List.nil_append, List.filterMap_append,
      List.filterMap_map]
    exact congrArg _ (congrArg (· ++ _) (List.filterMap_some ..))
  have hnodup : f.locals.toList.Nodup := hlocals ▸ nodup_eraseDups _
  have hlength : (parametersOf n).length = hashes.length := by
    simpa using congrArg List.length hhashes
  refine ⟨?_, hashes, _, hhashes, hlocals, hnodup, ?_, ?_, ?_⟩
  · rw [hf, ScriptFunction.params_edits]
    simp only [maxParameters] at hcount
    simp only [ScriptFunction.create, UInt8.toNat_ofNat']
    omega
  · rw [hlocals, List.eraseDups_append]
    exact List.prefix_append ..
  · intro htake
    exact htake ▸ hnodup.sublist (List.take_sublist _ _)
  · intro hdistinct
    rw [hlocals, List.eraseDups_append, eraseDups_of_nodup hdistinct, hlength]
    exact List.take_left

/-- A function with two parameters, of which the second has a default, and with other locals. -/
def twoParameters (first second : String) : Node :=
  .mk "function" (some "f") none [
    .mk "parameters" none none [
      Control.leafNode "parameter" first,
      .mk "parameter" (some second) none [Control.leafNode "numberLiteral" "5"]],
    .mk "block" none none [
      .mk "setVariableField" (some "=") none [
        Control.leafNode "identifier" "other", Control.leafNode "identifier" first],
      .mk "switchStatement" none none [Control.leafNode "identifier" second]]]

theorem parameters_first_locals_twoParameters :
    ∃ f script', lowerFunction (macrosOf []) (twoParameters "a" "b") (Script.create {}) =
        .ok (f, script') ∧
      f.params = 2 ∧ 2 < f.locals.size ∧
      (f.locals.toList.take 2).map some = ["a", "b"].map (Name.hash? .legacy) := by
  obtain ⟨⟨f, script'⟩, hlower, hcheck⟩ := @Control.exists_of_any _
    (lowerFunction (macrosOf []) (twoParameters "a" "b") (Script.create {}))
    (fun r => decide (2 < r.1.locals.size)) (by decide +kernel)
  obtain ⟨hcount, hashes, later, hhashes, -, -, -, htake⟩ := parameters_first_locals hlower
  have hnames : ["a", "b"].map (Name.hash? .legacy) = hashes.map some := hhashes
  have hdistinct : (["a", "b"].map (Name.hash? .legacy)).Nodup := by decide +kernel
  rw [hnames] at hdistinct ⊢
  refine ⟨f, script', hlower, UInt8.toNat_inj.mp hcount, of_decide_eq_true hcheck, ?_⟩
  exact congrArg _ (htake.mpr (hdistinct.of_map some))

/-- Two parameters that differ by case have the same hash: the function hands on two of them, but has
one local. -/
theorem repeated_parameter_shares_local :
    ∃ f script', lowerFunction (macrosOf []) (twoParameters "a" "A") (Script.create {}) =
        .ok (f, script') ∧
      f.params = 2 ∧ f.locals.toList[0]? = Name.hash? .legacy "a" ∧
      f.locals.toList[1]? = Name.hash? .legacy "other" ∧
      Name.hash? .legacy "A" = Name.hash? .legacy "a" := by
  obtain ⟨⟨f, script'⟩, hlower, hcheck⟩ := @Control.exists_of_any _
    (lowerFunction (macrosOf []) (twoParameters "a" "A") (Script.create {}))
    (fun r => decide (r.1.params = 2 ∧ r.1.locals.toList[0]? = Name.hash? .legacy "a" ∧
      r.1.locals.toList[1]? = Name.hash? .legacy "other" ∧
      Name.hash? .legacy "A" = Name.hash? .legacy "a")) (by decide +kernel)
  exact ⟨f, script', hlower, of_decide_eq_true hcheck⟩

end GscAssembler
