import GscAssembler.Proofs.Lowering.Traces

/-!
# Synthetic variables never interfere

A function is lowered by the tasks of a log (`LowersBy`), which tells to which occurrence of a construct
each instruction belongs.  If the names of the synthetic variables have different hashes, and none that
a variable of the script has too, then each switch and each loop over an array has variables of its own,
and whatever path leads to an instruction that reads a synthetic variable, the last instruction on it
that stored something there belongs to the same occurrence (`Separate`).

The variables that all coalescing operators share, and those of accesses that may be undefined, are the
reason why this is about paths: their reads must not be far from their stores.
-/

namespace GscAssembler.Lowering

open Code (Chain Instruction Key ScriptFunction)
open Control (parametersOf startOf)
open SyntaxTree (Node)

variable {s s' : State}

/-! ## The whole function -/

/-- The hashes of a script's own variables in a function. -/
def ownHashes (revision : Revision) (parameters : List Node) (log : List Done) : List UInt32 :=
  (ownNames parameters log).filterMap (Name.hash? revision)

/-- Whether the synthetic variables of a function serve one occurrence of a construct each, or one at a
time. -/
structure Separate (legacy : Bool) (f : ScriptFunction) (log : List Done)
    (synthetic : List UInt32) : Prop where
  /-- No two switches or loops over arrays have a variable in common, and none has one twice. -/
  disjoint : ((openings log).flatMap (Occurrence.variables legacy)).Nodup
  /-- Their variables are declared. -/
  declared : ∀ o ∈ openings log, ∀ x ∈ o.variables legacy, x ∈ synthetic ∧ x ∈ f.locals
  /-- An instruction on a synthetic variable belongs to an occurrence that uses it. -/
  attributed : ∀ k i x, f.chain.get? k = some i → i.named? = some x → x ∈ synthetic →
    ∃ o, occurrenceAt log k = some o ∧ x ∈ o.variables legacy
  /-- On every path, what is read from a synthetic variable was stored there by the occurrence that
  reads it. -/
  supplied : ∀ past k i x, f.chain.Path past k → f.chain.get? k = some i → i.reads? = some x →
    x ∈ synthetic → ∃ o store, occurrenceAt log k = some o ∧ x ∈ o.variables legacy ∧
      f.chain.lastStore? past x = some store ∧ occurrenceAt log store = some o
  /-- A reference to a synthetic variable is assigned to at once. -/
  assigned : ∀ k x, f.chain.get? k = some (.localVariable .evalLocalVariableRefCached x) →
    x ∈ synthetic → ∃ k', f.chain.next? k = some k' ∧
      f.chain.get? k' = some (.op .setVariableField)

section Whole

variable {b : Outset} {n body : Node} {script : Script} {log : List Done} {m : Machine}
  {legacy : Bool} {revision : Revision}

theorem get?_ofList_eq_some {items : List Instruction} {k : Key} {i : Instruction}
    (h : (Chain.ofList items).get? k = some i) : ∃ p, k = .at p ∧ items[p]? = some i := by
  obtain ⟨slot, hslot, -⟩ := Option.bind_eq_some_iff.mp h
  obtain ⟨hfound, hlive⟩ := Option.filter_eq_some_iff.mp hslot
  rw [Chain.slots_ofList_getElem?] at hfound
  obtain ⟨value, -, rfl⟩ := Option.map_eq_some_iff.mp hfound
  have hk : k = .at k.slot := by
    cases k
    simp_all [Chain.grownSlot, Key.at]
  refine ⟨k.slot, hk, ?_⟩
  rwa [hk, Chain.get?_ofList] at h

theorem eq_of_openings (h : ((openings log).flatMap (Occurrence.variables legacy)).Nodup)
    {o o' : Occurrence} (ho : o ∈ openings log) (ho' : o' ∈ openings log) {x : UInt32}
    (hx : x ∈ o.variables legacy) (hx' : x ∈ o'.variables legacy) : o = o' := by
  obtain ⟨-, hpairwise⟩ := List.nodup_flatMap.mp h
  have : Std.Symm (Function.onFun List.Disjoint (Occurrence.variables legacy)) :=
    ⟨fun _ _ h => h.symm⟩
  by_contra hne
  exact hpairwise.forall ho ho' hne hx hx'

theorem Occurrence.Known.begun_or_shared {o : Occurrence} (h : o.Known revision log) {x : UInt32}
    (hx : x ∈ o.variables legacy) :
    o ∈ openings log ∨ x ∈ (sharedNames log).filterMap (Name.hash? revision) := by
  cases o with
  | switch | foreach => exact .inl h
  | coalesce | definedAccess =>
      rw [List.mem_singleton.mp hx]
      exact .inr h

theorem mem_sources {p : Nat} {o : Occurrence} (h : occurrenceAt log (.at p) = some o) :
    some o ∈ sources log := by
  have hget : (none :: sources log)[p]?.getD none = some o := by
    rw [← List.getD_eq_getElem?_getD]
    exact h
  cases p with
  | zero => cases hget
  | succ p =>
      rw [List.getElem?_cons_succ] at hget
      cases hp : (sources log)[p]? with
      | none =>
          rw [hp] at hget
          cases hget
      | some entry =>
          rw [hp] at hget
          exact List.mem_of_getElem? (hp.trans (congrArg some hget))

theorem Traced.mem_reserved (h : Traced b log m) {o : Occurrence} (ho : o ∈ openings log)
    {x : UInt32} (hx : x ∈ o.variables b.target.isLegacy) : x ∈ b.reserved :=
  h.perm.subset (List.mem_append_left _ (List.mem_flatMap.mpr ⟨o, ho, hx⟩))

/-- A variable of a switch or a loop over an array is used by no other occurrence. -/
theorem Traced.sole_owner (h : Traced b log m)
    (hdistinct : (b.reserved ++
      (sharedNames log).filterMap (Name.hash? b.target.revision)).Nodup)
    {o o' : Occurrence} (ho : o ∈ openings log) (ho' : o'.Known b.target.revision log) {x : UInt32}
    (hx : x ∈ o.variables b.target.isLegacy) (hx' : x ∈ o'.variables b.target.isLegacy) :
    o' = o := by
  obtain ⟨hreserved, -, hapart⟩ := List.nodup_append.mp hdistinct
  rcases ho'.begun_or_shared hx' with ho' | hshared
  · exact eq_of_openings (h.perm.nodup_iff.mpr hreserved).of_append_left ho' ho hx' hx
  · exact absurd rfl (hapart x (h.mem_reserved ho hx) x hshared)

/-- The invariant of the machine is more than what is wanted, given that hashes do not collide. -/
theorem Traced.separate (h : Traced (outset n body script) log m)
    (hdistinct : (syntheticHashes script.target.revision body log).Nodup)
    (hown : ∀ x ∈ ownHashes script.target.revision (parametersOf n) log,
      x ∉ syntheticHashes script.target.revision body log) :
    Separate script.target.isLegacy m.state.function log
      (syntheticHashes script.target.revision body log) := by
  have hsplit : syntheticHashes script.target.revision body log =
      (outset n body script).reserved ++
        (sharedNames log).filterMap (Name.hash? script.target.revision) := by
    rw [syntheticHashes, List.filterMap_append]
    rfl
  generalize syntheticHashes script.target.revision body log = synthetic at *
  rw [hsplit] at hdistinct
  obtain ⟨code, facts, hcode, hrefs⟩ := h.ready
  -- a synthetic variable is none of the script's own, so whoever names it is an occurrence that has it
  have hattributed {p : Nat} {i : Instruction} {x : UInt32} (hi : code[p]? = some i)
      (hx : i.named? = some x) (hsynthetic : x ∈ synthetic) :
      ∃ o, occurrenceAt log (.at p) = some o ∧ x ∈ o.variables script.target.isLegacy ∧
        o.Known script.target.revision log ∧ (i.reads? = some x → o.Supplied x (facts p)) := by
    rcases hcode.attributed p i hi x hx with ⟨name, hname, hhash⟩ | ⟨o, ho, hvariable, hreads⟩
    · exact absurd hsynthetic (hown x (List.mem_filterMap.mpr ⟨name, hname, hhash⟩))
    · exact ⟨o, ho, hvariable, h.known o (mem_sources ho), hreads⟩
  constructor
  case disjoint =>
      exact (h.perm.nodup_iff.mpr (List.nodup_append.mp hdistinct).1).of_append_left
  case declared =>
      intro o ho x hx
      rw [hsplit]
      exact ⟨List.mem_append_left _ (h.mem_reserved ho hx), hcode.declared x (h.mem_reserved ho hx)⟩
  case attributed =>
      intro k i x hget hx hsynthetic
      rw [hcode.chain] at hget
      obtain ⟨p, rfl, hi⟩ := get?_ofList_eq_some hget
      obtain ⟨o, ho, hvariable, -⟩ := hattributed hi hx hsynthetic
      exact ⟨o, ho, hvariable⟩
  case supplied =>
      intro past k i x hpath hi hreads hsynthetic
      rw [hcode.chain] at hpath hi ⊢
      obtain ⟨p, -, rfl, hfacts⟩ := hcode.annotates.holds hpath
      rw [Chain.get?_ofList] at hi
      obtain ⟨o, ho, hvariable, hknown, hsupplied⟩ :=
        hattributed hi (Instruction.named?_of_reads? hreads) hsynthetic
      cases o with
      | coalesce | definedAccess =>
          -- the variable is shared, but the annotation knows who was the last to store it
          obtain ⟨store, hlast, hstore⟩ := hfacts _ (hsupplied hreads)
          exact ⟨_, store, ho, hvariable, hlast, hstore⟩
      | switch | foreach =>
          -- it only knows that something was stored, and nobody else has the variable
          obtain ⟨store, hlast⟩ := Option.isSome_iff_exists.mp (hfacts _ (hsupplied hreads))
          obtain ⟨j, hget, hstores⟩ := Chain.stores?_of_lastStore? hlast
          obtain ⟨q, rfl, hj⟩ := get?_ofList_eq_some hget
          obtain ⟨o', ho', hvariable', hknown', -⟩ :=
            hattributed hj (Instruction.named?_of_stores? hstores) hsynthetic
          have hsame := h.sole_owner hdistinct hknown hknown' hvariable hvariable'
          exact ⟨_, .at q, ho, hvariable, hlast, hsame ▸ ho'⟩
  case assigned =>
      intro k x hget hsynthetic
      rw [hcode.chain] at hget ⊢
      obtain ⟨p, rfl, hi⟩ := get?_ofList_eq_some hget
      obtain ⟨o, ho, -⟩ := hattributed hi rfl hsynthetic
      have hnext := hrefs p x o hi ho
      refine ⟨.at (p + 1), ?_, by rw [Chain.get?_ofList, hnext]⟩
      rw [Chain.next?_ofList, if_pos (List.getElem?_eq_some_iff.mp hnext).1]

end Whole

/-! ## Lowering by tasks -/

/-- Whether the machine lowers the function of a node by the tasks of a log. -/
def LowersBy (table : MacroTable) (n : Node) (script : Script) (body : Node) (log : List Done)
    (s' : State) : Prop :=
  ∃ s steps, startOf n script = .ok (body, s) ∧
    Machine.runBody table steps (parametersOf n) body s = .ok ⟨s', [], []⟩ ∧
    log = Machine.logBody table steps (parametersOf n) body s

section Lowering

variable {table : MacroTable} {n body : Node} {script script' : Script} {f : ScriptFunction}
  {log : List Done}

theorem LowersBy.traced (h : LowersBy table n script body log s') :
    Traced (outset n body script) log ⟨s', [], []⟩ := by
  obtain ⟨s, steps, hstart, hrun, rfl⟩ := h
  obtain ⟨⟨defaults, s₁⟩, hdeclare, hrun⟩ := Control.except_bind_eq_ok.mp hrun
  rw [Machine.logBody, hdeclare]
  exact (traced_of_start hstart (perform_eq_ok.mp hdeclare)).run hrun

/-- A machine that ends where recursion does has no other end. -/
theorem Machine.eq_ok_of_run {m : Machine} {x : Lower Unit} {s s' : State} {steps first : Nat}
    (h : m.run table steps = .ok ⟨s', [], []⟩)
    (hfirst : m.run table first = (perform x s).map fun r => ⟨r.2, [], []⟩) :
    x s = .ok ((), s') := by
  have hsame : (m.run table first >>= fun m => m.run table steps) = .ok ⟨s', [], []⟩ := by
    rw [← Machine.run_add, Nat.add_comm, Machine.run_add, h]
    exact Machine.run_of_rest rfl first
  rw [hfirst] at hsame
  cases hx : x s with
  | error e =>
      rw [perform, hx] at hsame
      cases hsame
  | ok r =>
      rw [perform_eq_ok.mpr hx] at hsame
      cases (Machine.run_of_rest rfl steps).symm.trans hsame
      rfl

/-- A function is lowered if and only if the machine lowers it by some tasks. -/
theorem lowerFunction_eq_ok_iff : lowerFunction (macrosOf table) n script = .ok (f, script') ↔
    ∃ body log, LowersBy table n script body log ⟨script', f⟩ := by
  rw [Control.lowerFunction_eq]
  constructor
  · intro h
    obtain ⟨⟨body, s⟩, hstart, h⟩ := Control.except_bind_eq_ok.mp h
    obtain ⟨⟨_, s₁⟩, hbody, hresult⟩ := Control.except_bind_eq_ok.mp h
    cases hresult
    obtain ⟨steps, hrun⟩ := exists_runBody table (parametersOf n) body s
    rw [perform_eq_ok.mpr hbody] at hrun
    exact ⟨body, _, s, steps, hstart, hrun, rfl⟩
  · rintro ⟨body, log, s, steps, hstart, hrun, -⟩
    obtain ⟨⟨defaults, s₁⟩, hdeclare, hrun⟩ := Control.except_bind_eq_ok.mp hrun
    obtain ⟨first, hfirst⟩ := exists_runBody table (parametersOf n) body s
    have hdone : Machine.run table first ⟨s₁, [], bodyTasks defaults body⟩ =
        (perform (lowerBody (macrosOf table) (parametersOf n) body) s).map fun r => ⟨r.2, [], []⟩ := by
      rw [← hfirst, Machine.runBody, hdeclare]
      rfl
    have hbody := Machine.eq_ok_of_run hrun hdone
    exact Control.except_bind_eq_ok.mpr ⟨_, hstart, Control.except_bind_eq_ok.mpr ⟨_, hbody, rfl⟩⟩

end Lowering

/-- Synthetic variables never interfere: a function that is lowered is lowered by the tasks of a log, and
if no hashes collide, then whatever constructs are nested in it, each has the variables it uses for
itself as long as it needs them. -/
theorem synthetic_variables_separate {table : MacroTable} {n : Node} {script script' : Script}
    {f : ScriptFunction} (h : lowerFunction (macrosOf table) n script = .ok (f, script')) :
    (∃ body log, LowersBy table n script body log ⟨script', f⟩) ∧
    ∀ body log, LowersBy table n script body log ⟨script', f⟩ →
      (syntheticHashes script.target.revision body log).Nodup →
      (∀ x ∈ ownHashes script.target.revision (parametersOf n) log,
        x ∉ syntheticHashes script.target.revision body log) →
      Separate script.target.isLegacy f log (syntheticHashes script.target.revision body log) :=
  ⟨lowerFunction_eq_ok_iff.mp h, fun _ _ hlowers => hlowers.traced.separate⟩

/-- A function in which switches, loops over arrays, coalescing operators and accesses that may be
undefined stand in each other's operands and bodies. -/
def nestedConstructs : Node :=
  let name (text : String) := Control.leafNode "identifier" text
  .mk "function" (some "f") none [
    .mk "parameters" none none [Control.leafNode "parameter" "list"],
    .mk "block" none none [
      .mk "foreachSingle" none none [
        name "item",
        .mk "undefined_coalesce" none none [name "list", name "list"],
        .mk "switchStatement" none none [
          .mk "undefined_coalesce" none none [
            .mk "definedAccess" (some "kind") none [name "item"],
            .mk "undefined_coalesce" none none [name "list", name "item"]],
          .mk "case" none none [
            name "list",
            .mk "foreachDouble" none none [
              name "key", name "item",
              .mk "definedAccess" (some "parts") none [name "item"],
              .mk "setVariableField" (some "??=") none [name "key", name "item"]]],
          .mk "default" none none [
            .mk "switchStatement" none none [
              name "item",
              .mk "case" none none [name "list", Control.leafNode "jumpStatement" "break"]]]]]]]

/-- The synthetic variables of that function on the legacy machine. -/
def nestedNames : List String :=
  ["$array0", "$key0", "$switch1", "$array2", "$key2", "$switch3", "$coalesce", "$defined"]

/-- A check of the whole lowering of a function tells how it is lowered. -/
theorem exists_lowersBy {table : MacroTable} {n : Node} {script : Script} {steps : Nat}
    {check : Node → List Done → Bool}
    (h : (startOf n script).toOption.any (fun start =>
      (Machine.runBody table steps (parametersOf n) start.1 start.2).toOption.any (fun m =>
        m.tasks.isEmpty && m.expanding.isEmpty) &&
      check start.1 (Machine.logBody table steps (parametersOf n) start.1 start.2)) = true) :
    ∃ body log s', LowersBy table n script body log s' ∧ check body log = true := by
  cases hstart : startOf n script with
  | error e => simp [hstart, Except.toOption] at h
  | ok start =>
      simp only [hstart, Except.toOption, Option.any_some, Bool.and_eq_true] at h
      obtain ⟨hrun, hcheck⟩ := h
      cases hm : Machine.runBody table steps (parametersOf n) start.1 start.2 with
      | error e => simp [hm] at hrun
      | ok m =>
          obtain ⟨s', expanding, tasks⟩ := m
          simp only [hm, Option.any_some, Bool.and_eq_true, List.isEmpty_iff] at hrun
          obtain ⟨rfl, rfl⟩ := hrun
          exact ⟨start.1, _, s', ⟨start.2, steps, hstart, hm, rfl⟩, hcheck⟩

theorem synthetic_variables_separate_nestedConstructs :
    ∃ script f script' body log, script.target = .legacyLittle ∧
      lowerFunction (macrosOf []) nestedConstructs script = .ok (f, script') ∧
      LowersBy [] nestedConstructs script body log ⟨script', f⟩ ∧
      (openings log).length = 4 ∧ reservedNames .legacy body ++ sharedNames log = nestedNames ∧
      Separate true f log (syntheticHashes .legacy body log) := by
  obtain ⟨body, log, s', hlowers, hcheck⟩ := @exists_lowersBy [] nestedConstructs (Script.create {}) 53
    (fun body log => decide ((openings log).length = 4 ∧
      reservedNames .legacy body ++ sharedNames log = nestedNames ∧
      ownNames (parametersOf nestedConstructs) log ⊆ ["list", "item", "key"])) (by decide +kernel)
  have htarget : (Script.create {}).target = .legacyLittle := rfl
  generalize Script.create {} = script at hlowers htarget
  obtain ⟨hopenings, hsynthetic, hown⟩ := of_decide_eq_true hcheck
  have hhashes : ((["list", "item", "key"] ++ nestedNames).filterMap (Name.hash? .legacy)).Nodup := by
    decide +kernel
  rw [List.filterMap_append, ← hsynthetic] at hhashes
  obtain ⟨-, hdistinct, hapart⟩ := List.nodup_append.mp hhashes
  have hlowered := lowerFunction_eq_ok_iff.mpr ⟨body, log, hlowers⟩
  obtain ⟨-, hseparate⟩ := synthetic_variables_separate hlowered
  rw [htarget] at hseparate
  refine ⟨script, s'.function, s'.script, body, log, htarget, hlowered, hlowers, hopenings,
    hsynthetic, hseparate body log hlowers hdistinct fun x hx hsame => ?_⟩
  exact hapart x (List.filterMap_subset _ hown hx) x hsame rfl

end GscAssembler.Lowering
