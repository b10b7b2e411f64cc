import GscAssembler.Proofs.Control.Built
import GscAssembler.Proofs.Control.Machine

/-!
# Lowering preserves control flow

The tree of a function can be run in two ways.  One reads it as a structured program and runs that,
where an oracle decides which way each condition goes.  The other lowers the tree and lets the
machine run the code.  Both execute the same instructions (`control_flow_preserved`): a run of the
program is a run of the machine, and however long the machine runs, some run of the program shows
all it has done.

The machine tells jumps from other instructions, so it has to be known that no instruction which a
program executes is a jump (`plain_of_follows`).
-/

namespace GscAssembler.Control

open Code (Chain Instruction ScriptFunction)
open Lowering
open SyntaxTree (Node)

variable {α β : Type}

/-! ## Programs without jumps of their own -/

theorem Silent.keeps_target {target : Target} {known : List UInt32} {x : Lower α}
    {learned : α → List UInt32} (hx : Silent target known x learned) :
    ∀ {s : State} {a : α} {s' : State}, s.script.target = target → x s = .ok (a, s') →
      s'.script.target = target := by
  induction hx with
  | throw e => intro s a s' _ hrun; cases hrun
  | pure | namespaceHash | callFlags | reserve =>
      intro s a s' h hrun
      cases hrun
      exact h
  | bind _ _ ihx ihf =>
      intro s b s' h hrun
      obtain ⟨a, s₁, hfirst, hsecond⟩ := exists_of_bind_eq_ok hrun
      exact ihf a (ihx h hfirst) hsecond
  | atTarget _ ih =>
      intro s a s' h hrun
      refine ih (a := a) h ?_
      rw [← h]
      exact hrun
  | hash name =>
      intro s a s' h hrun
      obtain ⟨names, -, rfl⟩ := hashName_eq_ok.mp hrun
      exact h
  | declare name =>
      intro s a s' h hrun
      obtain ⟨names, -, rfl⟩ := declare_eq_ok.mp hrun
      exact h
  | declaredLocal name =>
      intro s a s' h hrun
      obtain ⟨names, -, -, rfl⟩ := declaredLocal_eq_ok.mp hrun
      exact h
  | popSwitchKey =>
      intro s a s' h hrun
      obtain ⟨rest, -, rfl⟩ := popSwitchKey_eq_ok.mp hrun
      exact h
  | popForeachLocals =>
      intro s a s' h hrun
      obtain ⟨rest, -, rfl⟩ := popForeachLocals_eq_ok.mp hrun
      exact h

/-- Whether a sketch keeps the target, and no instruction of its program is a jump. -/
def Plain (target : Target) (y : Sketch α) : Prop :=
  ∀ ⦃s : State⦄ ⦃a : α⦄ ⦃p : Program⦄ ⦃s' : State⦄, s.script.target = target →
    y.run s = .ok ((a, p), s') →
    s'.script.target = target ∧ p.Every fun i => i.isJump = false

section Plain

variable {target : Target}

theorem plain_silent {x : Lower α} (hx : ∀ {s a s'}, s.script.target = target →
    x s = .ok (a, s') → s'.script.target = target) : Plain target (.silent x) := by
  intro s a p s' h hrun
  obtain ⟨hstep, rfl⟩ := silent_eq_ok.mp hrun
  exact ⟨hx h hstep, trivial⟩

theorem plain_pure (a : α) : Plain target (pure a : Sketch α) := by
  intro s b p s' h hrun
  cases hrun
  exact ⟨h, trivial⟩

theorem plain_write {i : Instruction} (hi : i.isJump = false) :
    Plain target (write (.instruction i)) := by
  intro s a p s' h hrun
  cases hrun
  exact ⟨h, hi⟩

theorem plain_bind {x : Sketch α} {f : α → Sketch β} (hx : Plain target x)
    (hf : ∀ a, Plain target (f a)) : Plain target (x >>= f) := by
  intro s b p s' h hrun
  obtain ⟨a, first, s₁, second, hfirst, hsecond, rfl⟩ := exists_of_sketch_bind_eq_ok hrun
  obtain ⟨h₁, hevery₁⟩ := hx h hfirst
  obtain ⟨h₂, hevery₂⟩ := hf a h₁ hsecond
  exact ⟨h₂, hevery₁, hevery₂⟩

theorem plain_atTarget {f : Target → Sketch α} (hf : Plain target (f target)) :
    Plain target (.silent getTarget >>= f) := by
  intro s a p s' h hrun
  obtain ⟨_, _, s₁, second, hfirst, hsecond, rfl⟩ := exists_of_sketch_bind_eq_ok hrun
  obtain ⟨htarget, rfl⟩ := silent_eq_ok.mp hfirst
  cases htarget
  rw [h] at hsecond
  obtain ⟨h₁, hevery⟩ := hf h hsecond
  exact ⟨h₁, trivial, hevery⟩

theorem plain_eval (hash : UInt32) (context : Code.Context) :
    Plain target (writeEval hash context) := by
  refine plain_bind (plain_silent ?_) fun _ => plain_write rfl
  intro s a s' h hrun
  cases hrun
  exact h

theorem plain_store (key : UInt32) : Plain target (writeStore key) := by
  refine plain_atTarget (f := fun t => if t.isLegacy then _ else _) ?_
  split
  · exact plain_bind (plain_eval key .isRef) fun _ => plain_write rfl
  · exact plain_write rfl

theorem plain_forM {body : List (Lower Unit × Sketch Unit)} (h : ∀ p ∈ body, Plain target p.2) :
    Plain target ((body.map (·.2)).forM id) := by
  induction body with
  | nil => exact plain_pure ()
  | cons first rest ih =>
      exact plain_bind (h first (by simp)) fun _ => ih fun p hp => h p (by simp [hp])

theorem plain_optional {x : Option (Lower Unit × Sketch Unit)} (h : ∀ p ∈ x, Plain target p.2) :
    Plain target (optional (x.map (·.2))) := by
  cases x with
  | none => exact plain_pure ()
  | some p => exact h p rfl

theorem plain_branching {key : UInt32} {branches : List PairedBranch}
    (hvalues : ∀ b ∈ branches, ∀ p ∈ b.value, Plain target p.2)
    (hbodies : ∀ b ∈ branches, ∀ p ∈ b.body, Plain target p.2) :
    Plain target (branching key (branches.map (·.sketched))) := by
  induction branches with
  | nil => exact plain_pure ()
  | cons b rest ih =>
      have hrest := ih (fun b hb => hvalues b (by simp [hb])) (fun b hb => hbodies b (by simp [hb]))
      obtain ⟨value, body⟩ := b
      have hbody := plain_forM (hbodies _ (List.mem_cons_self ..))
      cases value with
      | none => exact hbody
      | some value =>
          have htest : Plain target (branchTest key value.2) :=
            plain_bind (hvalues _ (List.mem_cons_self ..) value rfl) fun _ =>
              plain_bind (plain_eval key .plain) fun _ => plain_write rfl
          intro s a p s' h hrun
          cases body with
          | nil =>
              obtain ⟨t, s₁, q, ht, hq, rfl⟩ := join_eq_ok.mp hrun
              obtain ⟨h₁, hevery₁⟩ := htest h ht
              obtain ⟨h₂, hevery₂⟩ := hrest h₁ hq
              exact ⟨h₂, hevery₁, hevery₂⟩
          | cons first others =>
              obtain ⟨t, s₁, q, s₂, r, ht, hq, hr, rfl⟩ := branching_case_eq_ok.mp hrun
              obtain ⟨h₁, hevery₁⟩ := htest h ht
              obtain ⟨h₂, hevery₂⟩ := hbody h₁ hq
              obtain ⟨h₃, hevery₃⟩ := hrest h₂ hr
              exact ⟨h₃, hevery₁, hevery₂, hevery₃⟩

theorem isJump_of_emittable {revision : Revision} {i : Instruction} (h : i.Emittable revision) :
    i.isJump = false := by
  cases i with
  | jump => exact absurd h id
  | _ => rfl

/-- No instruction that a program of a tree executes is a jump. -/
theorem plain_of_follows {known : List UInt32} {x : Lower α} {y : Sketch α}
    {learned : α → List UInt32} (h : Follows target known x y learned) : Plain target y := by
  induction h with
  | silent h => exact plain_silent h.keeps_target
  | bind _ _ ihx ihf => exact plain_bind ihx ihf
  | atTarget _ ih => exact plain_atTarget ih
  | emit i hemittable _ => exact plain_write (isJump_of_emittable hemittable)
  | eval context _ => exact plain_eval _ context
  | number value =>
      have hsilent : Silent target [] (liftM value.checked) nothingLearned := .except value.checked
      exact plain_bind (plain_silent hsilent.keeps_target) fun _ => plain_write rfl
  | canonicalHash name =>
      refine plain_bind (plain_silent ?_) fun _ => plain_write rfl
      intro s a s' h hrun
      obtain ⟨names, -, rfl⟩ := hashName64_eq_ok.mp hrun
      exact h
  | string | debugString | global | call | functionPointer =>
      refine plain_bind (plain_silent ?_) fun _ => plain_write rfl
      intro s a s' h hrun
      cases hrun
      exact h
  | skip hcode _ ih =>
      intro s a p s' h hrun
      obtain ⟨q, hq, rfl⟩ := wrap_eq_ok.mp hrun
      obtain ⟨h₁, hevery⟩ := ih h hq
      exact ⟨h₁, hcode, hevery⟩
  | choose hcode _ _ ihBody ihOtherwise =>
      intro s a p s' h hrun
      obtain ⟨q, s₁, r, hq, hr, rfl⟩ := join_eq_ok.mp hrun
      obtain ⟨h₁, hevery₁⟩ := ihBody h hq
      obtain ⟨h₂, hevery₂⟩ := ihOtherwise h₁ hr
      exact ⟨h₂, hcode, hevery₁, hevery₂⟩
  | loop _ _ _ _ _ _ ihStart ihTest ihBody ihStep =>
      intro s a p s' h hrun
      obtain ⟨p₁, s₁, p₂, s₂, p₃, s₃, p₄, hp₁, hp₂, hp₃, hp₄, rfl⟩ := looping_eq_ok.mp hrun
      obtain ⟨h₁, hevery₁⟩ := ihStart h hp₁
      obtain ⟨h₂, hevery₂⟩ := plain_optional ihTest h₁ hp₂
      obtain ⟨h₃, hevery₃⟩ := ihBody h₂ hp₃
      obtain ⟨h₄, hevery₄⟩ := plain_optional ihStep h₃ hp₄
      exact ⟨h₄, hevery₁, hevery₂, hevery₃, hevery₄⟩
  | switch _ _ _ _ _ ihValue ihValues ihBodies =>
      intro s a p s' h hrun
      obtain ⟨q, hq, rfl⟩ := wrap_eq_ok.mp hrun
      obtain ⟨h₁, hevery⟩ := plain_bind ihValue (fun _ => plain_bind (plain_store _) fun _ =>
        plain_branching ihValues ihBodies) h hq
      exact ⟨h₁, hevery⟩
  | loopJump kind levels =>
      intro s a p s' h hrun
      cases hrun
      exact ⟨h, trivial⟩

end Plain

/-! ## Functions -/

theorem normal_of_andThen {r : Result} {next : Run} (h : (r.andThen next).outcome = .normal) :
    (next r.bits).outcome = .normal := by
  unfold Result.andThen at h
  split at h
  · exact h
  · contradiction

/-- The program of a function runs to an instruction that ends the function, unless it is
interrupted. -/
theorem not_normal_of_sketchBody {macros : SketchedMacros} {parameters : List Node} {body : Node}
    {s s' : State} {p : Program}
    (h : (sketchBody macros parameters body).run s = .ok (((), p), s')) (fuel : Nat)
    (bits : List Bool) : (p.run fuel false bits).outcome ≠ .normal := by
  obtain ⟨_, _, _, _, -, h₁, rfl⟩ := exists_of_sketch_bind_eq_ok h
  obtain ⟨_, _, _, _, -, h₂, rfl⟩ := exists_of_sketch_bind_eq_ok h₁
  obtain ⟨_, _, _, _, -, h₃, rfl⟩ := exists_of_sketch_bind_eq_ok h₂
  obtain ⟨_, _, _, _, -, h₄, rfl⟩ := exists_of_sketch_bind_eq_ok h₃
  cases h₄
  intro hnormal
  have hend := normal_of_andThen (normal_of_andThen (normal_of_andThen (normal_of_andThen hnormal)))
  exact absurd hend (by simp [Program.run, stops])

/-- The machine does with the code of a function what its program does. -/
theorem simulates_function {p : Program} (hclosed : p.exits 1 = [])
    (hplain : p.Every fun i => i.isJump = false) (fuel : Nat) (bits : List Bool) :
    Simulates (.locals :: p.code .unknown 1) .unknown (1 + p.length) fuel 0 bits
      ((Program.sequence (.instruction .locals) p).run fuel false bits) := by
  have hlocals : Reaches (.locals :: p.code .unknown 1) 1 0 bits [.locals] bits 1 := by
    intro more
    rw [Nat.add_comm, execute_instruction rfl rfl]
    rfl
  have hfits : Fits (.locals :: p.code .unknown 1) .unknown 1 p :=
    { code := List.prefix_rfl
      plain := hplain
      known := by
        rw [hclosed]
        intro e he
        cases he
      behind := Nat.one_pos
      landsBehind := fun _ _ _ hlanding => by cases hlanding }
  exact hlocals.simulates (simulates_run fuel p hfits false bits) (Nat.le_add_left ..)

/-- A run from which no jump leads out takes some steps, and at least as many as there was fuel if it
was cut off. -/
theorem Simulates.exists_steps {items : List Instruction} {finish fuel position : Nat}
    {bits : List Bool} {r : Result} (h : Simulates items .unknown finish fuel position bits r)
    (hr : r.outcome ≠ .normal) :
    r.outcome ∈ [.halted, .starved, .cut] ∧
      ∃ steps, execute (.ofList items) steps (place items position) bits = r ∧
        (∀ more, r.outcome ≠ .cut →
          execute (.ofList items) (steps + more) (place items position) bits = r) ∧
        (r.outcome = .cut → fuel ≤ steps) := by
  cases h with
  | goes hlanding _ _ =>
      cases ho : r.outcome with
      | normal => exact absurd ho hr
      | _ => rw [ho] at hlanding; cases hlanding
  | ends steps hend hends =>
      refine ⟨by rcases hend with hend | hend <;> simp [hend], steps, hends 0,
        fun more _ => hends more, fun hcut => ?_⟩
      rcases hend with hend | hend <;> cases hend.symm.trans hcut
  | @cut steps target hcut hfuel hreaches =>
      refine ⟨by simp [hcut], steps, ?_, fun _ hnot => absurd hcut hnot, fun _ => hfuel⟩
      have hsteps := hreaches 0
      rw [Nat.add_zero] at hsteps
      rw [hsteps, execute, ← hcut]
      simp [Result.after]

end GscAssembler.Control

namespace GscAssembler

open Control
open Lowering
open SyntaxTree (Node)

/-- Lowering preserves control flow.  Whichever way the conditions go, a run of the structured
program of a function is a run of the machine on the code of the function; and whatever the machine
has done after any number of steps, some run of the program does as well. -/
theorem control_flow_preserved {table : MacroTable} {n : Node} {script script' : Script}
    {f : Code.ScriptFunction}
    (h : lowerFunction (macrosOf table) n script = .ok (f, script')) :
    ∃ p, sketchFunction (sketchedMacros table) n script = .ok p ∧ ∀ bits,
      (∀ fuel, (p.run fuel false bits).outcome ∈ [.halted, .starved, .cut] ∧
        ∃ steps, execute f.chain steps f.chain.first bits = p.run fuel false bits) ∧
      ∀ steps, ∃ fuel,
        (execute f.chain steps f.chain.first bits).Precedes (p.run fuel false bits) := by
  obtain ⟨body, s, p, s₁, hstart, hrun, hclosed, rfl, -⟩ :=
    exists_of_lowerFunction (matching_macrosOf table) h
  refine ⟨.sequence (.instruction .locals) p, ?_, fun bits => ?_⟩
  · rw [sketchFunction_eq, hstart]
    exact except_bind_eq_ok.mpr ⟨_, rfl, except_bind_eq_ok.mpr ⟨_, hrun, rfl⟩⟩
  have hfollows : Follows script.target [] (lowerBody (macrosOf table) (parametersOf n) body)
      (sketchBody (sketchedMacros table) (parametersOf n) body) nothingLearned :=
    follows_lowerBody (matching_macrosOf table) (parametersOf n) body
  have hplain := (plain_of_follows hfollows (startOf_withCode hstart).1 hrun).2
  have hnormal : ∀ fuel, ((Program.sequence (.instruction .locals) p).run fuel false bits).outcome ≠
      .normal := fun fuel hnormal =>
    not_normal_of_sketchBody hrun fuel _ (normal_of_andThen hnormal)
  have hsteps := fun fuel => (simulates_function hclosed hplain fuel bits).exists_steps (hnormal fuel)
  refine ⟨fun fuel => ?_, fun steps => ⟨steps, ?_⟩⟩
  · obtain ⟨houtcome, steps, hexecute, -, -⟩ := hsteps fuel
    exact ⟨houtcome, steps, hexecute⟩
  -- with as much fuel as the machine makes steps, the program does not fall behind
  obtain ⟨-, needed, hexecute, hmore, hcut⟩ := hsteps steps
  by_cases hle : steps ≤ needed
  · have hprecedes := execute_precedes (.ofList (.locals :: p.code .unknown 1)) steps
      (needed - steps) (some (.at 0)) bits
    rw [Nat.add_sub_cancel' hle] at hprecedes
    exact hexecute ▸ hprecedes
  · have hdone : ((Program.sequence (.instruction .locals) p).run steps false bits).outcome ≠
        .cut := fun h => hle (hcut h)
    have hexecute := hmore (steps - needed) hdone
    rw [Nat.add_sub_cancel' (Nat.le_of_not_le hle)] at hexecute
    exact .inr hexecute

/-- A run of the loop that prints a text: whether the text is printed is up to the oracle. -/
theorem control_flow_preserved_printingLoop :
    ∃ r p, lowerFunction (macrosOf []) printingLoop (Script.create {}) = .ok r ∧
      sketchFunction (sketchedMacros []) printingLoop (Script.create {}) = .ok p ∧ ∀ bits,
      (∀ fuel, (p.run fuel false bits).outcome ∈ [.halted, .starved, .cut] ∧
        ∃ steps, execute r.1.chain steps r.1.chain.first bits = p.run fuel false bits) ∧
      ∀ steps, ∃ fuel,
        (execute r.1.chain steps r.1.chain.first bits).Precedes (p.run fuel false bits) := by
  have hlowers : (lowerFunction (macrosOf []) printingLoop (Script.create {})).isOk = true := by
    decide +kernel
  cases h : lowerFunction (macrosOf []) printingLoop (Script.create {}) with
  | error e => rw [h] at hlowers; cases hlowers
  | ok r =>
      obtain ⟨p, hp, hruns⟩ := control_flow_preserved h
      exact ⟨r, p, rfl, hp, hruns⟩

end GscAssembler
