import GscAssembler.Proofs.Control.Code
import GscAssembler.Proofs.Control.Rules
import GscAssembler.Proofs.Control.Steps

/-!
# Lowering lays out the structured program

Whatever follows a sketch leaves behind the code of the program that the sketch gives
(`refines_of_follows`).  The code stands behind what was there before, which stays as it was.  Jumps
that leave the piece are not settled yet; they wait in the scopes they leave, as many levels outward
as the program says.
-/

namespace GscAssembler.Control

open Code (Chain Instruction Key LoopJump Opcode PendingJump ScriptFunction)
open Lowering

variable {α β : Type}

/-! ## Exits and scopes -/

/-- The exit as a jump that waits in a scope. -/
def Exit.pending (e : Exit) : PendingJump :=
  ⟨e.kind, .at e.position⟩

/-- The scopes with exits added, each to the scope it leaves. -/
def addExits (exits : List Exit) (scopes : List (List PendingJump)) : List (List PendingJump) :=
  scopes.mapIdx fun level pending =>
    pending ++ (exits.filter (·.outward = level)).map Exit.pending

@[simp] theorem length_addExits (exits : List Exit) (scopes : List (List PendingJump)) :
    (addExits exits scopes).length = scopes.length := by
  simp [addExits]

@[simp] theorem addExits_nil (scopes : List (List PendingJump)) : addExits [] scopes = scopes := by
  apply List.ext_getElem?
  intro level
  simp [addExits]

theorem addExits_append (first second : List Exit) (scopes : List (List PendingJump)) :
    addExits (first ++ second) scopes = addExits second (addExits first scopes) := by
  simp [addExits, List.mapIdx_mapIdx, Function.comp_def]

theorem addExits_cons (exits : List Exit) (pending : List PendingJump)
    (scopes : List (List PendingJump)) :
    addExits exits (pending :: scopes) =
      (pending ++ (exits.filter (·.outward = 0)).map Exit.pending) ::
        addExits (exits.filterMap Exit.outer?) scopes := by
  have houter : ∀ level, (exits.filter (·.outward = level + 1)).map Exit.pending =
      ((exits.filterMap Exit.outer?).filter (·.outward = level)).map Exit.pending := by
    intro level
    induction exits with
    | nil => rfl
    | cons e rest ih =>
        obtain ⟨kind, outward, position⟩ := e
        cases outward with
        | zero => simpa [List.filterMap_cons, Exit.outer?] using ih
        | succ outward =>
            by_cases h : outward = level <;>
              simpa [List.filterMap_cons, Exit.outer?, h, Exit.pending] using ih
  simp only [addExits, List.mapIdx_cons, List.cons.injEq, true_and]
  congr 1
  funext level pending
  rw [houter]

theorem addExits_singleton {e : Exit} {scopes : List (List PendingJump)} :
    addExits [e] scopes = scopes.modify e.outward (· ++ [e.pending]) := by
  apply List.ext_getElem?
  intro level
  simp only [addExits, List.getElem?_mapIdx, List.getElem?_modify]
  by_cases h : e.outward = level <;> cases scopes[level]? <;> simp [h]

theorem addExits_cons_left (e : Exit) (rest : List Exit) (scopes : List (List PendingJump)) :
    addExits (e :: rest) scopes =
      addExits rest (scopes.modify e.outward (· ++ [e.pending])) := by
  rw [← List.singleton_append, addExits_append, addExits_singleton]

/-! ## States by their code -/

/-- A state with other code and other open scopes. -/
def withCode (s : State) (items : List Instruction) (scopes : List (List PendingJump)) : State :=
  { s with function := { s.function with chain := .ofList items, scopes } }

section Steps

variable (s : State) (items : List Instruction) (scopes : List (List PendingJump))

theorem emit_withCode (i : Instruction) :
    emit i (withCode s items scopes) =
      .ok (.at items.length, withCode s (items ++ [i]) scopes) := by
  simp only [emit, withCode, ScriptFunction.add, Chain.push_ofList]
  rfl

theorem function_setTarget_withCode (position : Nat) (after : Key) :
    (withCode s items scopes).function.setTarget (.at position) after =
      (withCode s (items.modify position (Instruction.retarget after)) scopes).function := by
  simp only [withCode, ScriptFunction.setTarget, Chain.modify_ofList]

theorem setTarget_withCode (position : Nat) (after : Key) :
    setTarget (.at position) after (withCode s items scopes) =
      .ok ((), withCode s (items.modify position (Instruction.retarget after)) scopes) := by
  change Except.ok ((), _) = _
  simp only [withCode, ScriptFunction.setTarget, Chain.modify_ofList]

variable {items} in
theorem lastKey_withCode (h : items ≠ []) :
    lastKey (withCode s items scopes) = .ok (before items.length, withCode s items scopes) := by
  change Except.ok (_, withCode s items scopes) = _
  simp only [withCode, ScriptFunction.lastKey, Chain.last_ofList_getD (List.length_pos_iff.mpr h)]
  rfl

variable {items} in
/-- Giving a jump that stands between other code a target. -/
theorem setTarget_append {position : Nat} (pre : List Instruction) (code : Opcode)
    (post : List Instruction) (hitems : items = pre ++ .jump code none :: post)
    (hlength : pre.length = position) (after : Key) :
    setTarget (.at position) after (withCode s items scopes) =
      .ok ((), withCode s (pre ++ .jump code (some after) :: post) scopes) := by
  subst hitems hlength
  rw [setTarget_withCode, modify_append_cons]
  rfl

variable {items} in
/-- Letting a jump that stands between other code land behind all of it. -/
theorem land_append {position last : Nat} (pre : List Instruction) (code : Opcode)
    (post : List Instruction) (hitems : items = pre ++ .jump code none :: post)
    (hlength : pre.length = position) (hlast : position + 1 + post.length = last) :
    land (.at position) (withCode s items scopes) =
      .ok ((), withCode s (pre ++ .jump code (some (before last)) :: post) scopes) := by
  have hend : items.length = last := by
    simp only [hitems, List.length_append, List.length_cons]
    omega
  have hne : items ≠ [] := by simp [hitems]
  rw [land, bind_of_eq_ok (lastKey_withCode s scopes hne), hend,
    setTarget_append s scopes pre code post hitems hlength]

theorem enterLoop_withCode :
    enterLoop (withCode s items scopes) = .ok ((), withCode s items ([] :: scopes)) := rfl

end Steps

theorem withLocal_withCode (s : State) (items : List Instruction) (scopes : List (List PendingJump))
    (hash : UInt32) :
    withLocal (withCode s items scopes) hash = withCode (withLocal s hash) items scopes := by
  have hlocals : (withCode s items scopes).function.hasLocal hash = s.function.hasLocal hash := rfl
  by_cases h : s.function.hasLocal hash <;>
    simp only [withLocal, ScriptFunction.addLocal, hlocals, h] <;> rfl

/-! ## Closing scopes -/

/-- Closing a loop settles the exits that leave it. -/
theorem settle_loop (next leave : Nat) (exits : List Exit) :
    ∀ (s : State) (items : List Instruction) (scopes : List (List PendingJump)),
      ScriptFunction.settle (some (before next)) (before leave)
          ((exits.filter (·.outward = 0)).map Exit.pending) (withCode s items scopes).function =
        (none, (withCode s (exits.foldl (Exit.settle (Landings.unknown.inLoop next leave)) items)
          scopes).function) := by
  induction exits with
  | nil => intro s items scopes; rfl
  | cons e rest ih =>
      intro s items scopes
      obtain ⟨kind, outward, position⟩ := e
      cases outward with
      | succ outward => exact ih s items scopes
      | zero =>
          cases kind <;>
            simp only [List.filter_cons, decide_true, if_true, List.map_cons, Exit.pending,
              ScriptFunction.settle, function_setTarget_withCode] <;>
            exact ih s _ scopes

/-- Closing a switch settles the exits that leave it, and hands those to a next round on. -/
theorem settle_switch (leave : Nat) (exits : List Exit) :
    ∀ (s : State) (items : List Instruction) (scopes : List (List PendingJump)) {f : ScriptFunction},
      ScriptFunction.settle none (before leave)
          ((exits.filter (·.outward = 0)).map Exit.pending) (withCode s items scopes).function =
        (none, f) →
      (∀ e ∈ exits.filterMap Exit.handedOn?, e.outward < scopes.length) ∧
      f = (withCode s (exits.foldl (Exit.settle (Landings.unknown.inSwitch leave)) items)
        (addExits (exits.filterMap Exit.handedOn?) scopes)).function := by
  induction exits with
  | nil =>
      intro s items scopes f h
      exact ⟨by simp, by simpa [ScriptFunction.settle] using (Prod.mk.inj h).2.symm⟩
  | cons e rest ih =>
      intro s items scopes f h
      obtain ⟨kind, outward, position⟩ := e
      cases outward with
      | succ outward =>
          have hnot : Exit.handedOn? ⟨kind, outward + 1, position⟩ = none := by
            simp [Exit.handedOn?]
          rw [List.filterMap_cons_none hnot]
          exact ih s items scopes h
      | zero =>
          simp only [List.filter_cons, decide_true, if_true, List.map_cons, Exit.pending] at h
          cases kind with
          | leave =>
              rw [ScriptFunction.settle, function_setTarget_withCode] at h
              exact ih s _ scopes h
          | next =>
              have hsome : Exit.handedOn? ⟨.next, 0, position⟩ = some ⟨.next, 0, position⟩ := rfl
              rw [List.filterMap_cons_some hsome]
              cases scopes with
              | nil => cases h
              | cons outer scopes =>
                  rw [ScriptFunction.settle] at h
                  case heq => rfl
                  obtain ⟨hbound, heq⟩ := ih s items ((outer ++ [⟨.next, .at position⟩]) :: scopes) h
                  constructor
                  · intro e he
                    rcases List.mem_cons.mp he with rfl | he
                    · simp
                    · simpa using hbound e he
                  · rw [heq, addExits_cons_left]
                    rfl

section Closing

variable {s : State} {items : List Instruction} {scopes : List (List PendingJump)}

/-- Closing a scope is settling what waited in it. -/
theorem exitLoop_of_settle {header : Option Key} {footer : Key} {pending : List PendingJump}
    {f : ScriptFunction} (hscopes : s.function.scopes = pending :: scopes)
    (h : ScriptFunction.settle header footer pending { s.function with scopes } = (none, f)) :
    exitLoop header footer s = .ok ((), { s with function := f }) := by
  simp only [exitLoop, updateFunction, ScriptFunction.exitLoop, hscopes, h]
  rfl

theorem exists_settle_of_exitLoop {header : Option Key} {footer : Key} {pending : List PendingJump}
    {s' : State} (hscopes : s.function.scopes = pending :: scopes)
    (h : exitLoop header footer s = .ok ((), s')) :
    ∃ f, ScriptFunction.settle header footer pending { s.function with scopes } = (none, f) ∧
      s' = { s with function := f } := by
  simp only [exitLoop, updateFunction, ScriptFunction.exitLoop, hscopes] at h
  generalize hsettle : ScriptFunction.settle header footer pending { s.function with scopes } = r at h
  obtain ⟨error, f⟩ := r
  cases error with
  | some error => cases h
  | none => cases h; exact ⟨f, rfl, rfl⟩

theorem exitLoop_loop (exits : List Exit) (next leave : Nat) :
    exitLoop (some (before next)) (before leave)
        (withCode s items (addExits exits ([] :: scopes))) =
      .ok ((), withCode s
        (exits.foldl (Exit.settle (Landings.unknown.inLoop next leave)) items)
        (addExits (exits.filterMap Exit.outer?) scopes)) := by
  have hsettle := settle_loop next leave exits s items (addExits (exits.filterMap Exit.outer?) scopes)
  rw [addExits_cons, List.nil_append]
  exact exitLoop_of_settle rfl hsettle

theorem exitLoop_switch (exits : List Exit) (leave : Nat) {s' : State}
    (h : exitLoop none (before leave) (withCode s items (addExits exits ([] :: scopes))) =
      .ok ((), s')) :
    (∀ e ∈ exits.filterMap Exit.handedOn?, e.outward < scopes.length) ∧
    s' = withCode s (exits.foldl (Exit.settle (Landings.unknown.inSwitch leave)) items)
      (addExits (exits.filterMap Exit.outer? ++ exits.filterMap Exit.handedOn?) scopes) := by
  rw [addExits_cons, List.nil_append] at h
  obtain ⟨f, hsettle, rfl⟩ := exists_settle_of_exitLoop rfl h
  obtain ⟨hbound, rfl⟩ := settle_switch leave exits s items _ hsettle
  rw [length_addExits] at hbound
  rw [← addExits_append]
  exact ⟨hbound, rfl⟩

end Closing

/-! ## Steps without code -/

/-- Whether a step neither reads nor changes the code, and keeps the target. -/
def Oblivious (target : Target) (x : Lower α) : Prop :=
  ∀ (s : State) (items : List Instruction) (scopes : List (List PendingJump)) (a : α) (s' : State),
    s.script.target = target → x (withCode s items scopes) = .ok (a, s') →
    ∃ s₁, x s = .ok (a, s₁) ∧ s₁.script.target = target ∧ s' = withCode s₁ items scopes

theorem Silent.oblivious {target : Target} {known : List UInt32} {x : Lower α}
    {learned : α → List UInt32} (h : Silent target known x learned) : Oblivious target x := by
  induction h with
  | pure a _ =>
      intro s items scopes b s' htarget h
      cases h
      exact ⟨s, rfl, htarget, rfl⟩
  | throw e => intro s items scopes b s' _ h; cases h
  | bind hx hf ihx ihf =>
      intro s items scopes b s' htarget h
      obtain ⟨a, s₁', hfirst, hsecond⟩ := exists_of_bind_eq_ok h
      obtain ⟨s₁, hrun, htarget₁, rfl⟩ := ihx s items scopes a s₁' htarget hfirst
      obtain ⟨s₂, hrun₂, htarget₂, rfl⟩ := ihf a s₁ items scopes b s' htarget₁ hsecond
      exact ⟨s₂, by rw [bind_of_eq_ok hrun, hrun₂], htarget₂, rfl⟩
  | atTarget _ ih =>
      intro s items scopes b s' htarget h
      subst htarget
      exact ih s items scopes b s' rfl h
  | namespaceHash | callFlags | reserve =>
      intro s items scopes b s' htarget h
      cases h
      exact ⟨_, rfl, htarget, rfl⟩
  | hash name =>
      intro s items scopes b s' htarget h
      obtain ⟨names, hnames, rfl⟩ := hashName_eq_ok.mp h
      exact ⟨withNames s names, hashName_eq_ok.mpr ⟨names, hnames, rfl⟩, htarget, rfl⟩
  | declare name =>
      intro s items scopes b s' htarget h
      obtain ⟨names, hnames, rfl⟩ := declare_eq_ok.mp h
      refine ⟨withLocal (withNames s names) b, declare_eq_ok.mpr ⟨names, hnames, rfl⟩, htarget, ?_⟩
      rw [← withLocal_withCode]
      rfl
  | declaredLocal name =>
      intro s items scopes b s' htarget h
      obtain ⟨names, hnames, hlocal, rfl⟩ := declaredLocal_eq_ok.mp h
      exact ⟨withNames s names, declaredLocal_eq_ok.mpr ⟨names, hnames, hlocal, rfl⟩, htarget, rfl⟩
  | popSwitchKey =>
      intro s items scopes b s' htarget h
      obtain ⟨rest, hkeys, rfl⟩ := popSwitchKey_eq_ok.mp h
      exact ⟨_, popSwitchKey_eq_ok.mpr ⟨rest, hkeys, rfl⟩, htarget, rfl⟩
  | popForeachLocals =>
      intro s items scopes b s' htarget h
      obtain ⟨rest, hkeys, rfl⟩ := popForeachLocals_eq_ok.mp h
      exact ⟨_, popForeachLocals_eq_ok.mpr ⟨rest, hkeys, rfl⟩, htarget, rfl⟩

theorem oblivious_pure {target : Target} {a : α} : Oblivious target (pure a) := by
  intro s items scopes b s' htarget h
  cases h
  exact ⟨s, rfl, htarget, rfl⟩

/-! ## Pieces with code -/

/-- Whether a piece of lowering lays out the program of its sketch. -/
def Refines (target : Target) (x : Lower α) (y : Sketch α) : Prop :=
  ∀ (s : State) (items : List Instruction) (scopes : List (List PendingJump)) (a : α) (s' : State),
    s.script.target = target → items ≠ [] → x (withCode s items scopes) = .ok (a, s') →
    ∃ p s₁, y.run s = .ok ((a, p), s₁) ∧ s₁.script.target = target ∧
      (∀ e ∈ p.exits items.length, e.outward < scopes.length) ∧
      s' = withCode s₁ (items ++ p.code .unknown items.length)
        (addExits (p.exits items.length) scopes)

section Pieces

variable {target : Target}

/-- What a piece leaves behind, where the number of instructions before it is known. -/
theorem Refines.exists_of_eq_ok {x : Lower α} {y : Sketch α} (h : Refines target x y) {s s' : State}
    {items : List Instruction} {scopes : List (List PendingJump)} {a : α} (position : Nat)
    (hrun : x (withCode s items scopes) = .ok (a, s')) (htarget : s.script.target = target)
    (hlength : items.length = position) (hposition : 0 < position) :
    ∃ p s₁, y.run s = .ok ((a, p), s₁) ∧ s₁.script.target = target ∧
      (∀ e ∈ p.exits position, e.outward < scopes.length) ∧
      s' = withCode s₁ (items ++ p.code .unknown position)
        (addExits (p.exits position) scopes) := by
  subst hlength
  exact h s items scopes a s' htarget (List.length_pos_iff.mp hposition) hrun

theorem refines_silent {x : Lower α} (h : Oblivious target x) : Refines target x (.silent x) := by
  intro s items scopes a s' htarget _ hrun
  obtain ⟨s₁, hx, htarget₁, rfl⟩ := h s items scopes a s' htarget hrun
  refine ⟨.nothing, s₁, ?_, htarget₁, by simp [Program.exits], by
    simp [Program.exits, Program.code]⟩
  change (x s).bind _ = _
  rw [hx]
  rfl

theorem refines_bind {x : Lower α} {y : Sketch α} {f : α → Lower β} {g : α → Sketch β}
    (hx : Refines target x y) (hf : ∀ a, Refines target (f a) (g a)) :
    Refines target (x >>= f) (y >>= g) := by
  intro s items scopes b s' htarget hitems hrun
  obtain ⟨a, s₁', hfirst, hsecond⟩ := exists_of_bind_eq_ok hrun
  obtain ⟨p, s₁, hp, htarget₁, hexits, rfl⟩ := hx s items scopes a s₁' htarget hitems hfirst
  obtain ⟨q, s₂, hq, htarget₂, hexits₂, rfl⟩ := hf a s₁ _ _ b s' htarget₁ (by simp [hitems]) hsecond
  refine ⟨.sequence p q, s₂, sketch_bind_of_eq_ok hp hq, htarget₂, ?_, ?_⟩
  · intro e he
    rcases List.mem_append.mp he with he | he
    · exact hexits e he
    · simpa using hexits₂ e (by simpa [Program.length_code] using he)
  · simp [Program.code, Program.exits, Program.length_code, addExits_append]

theorem refines_atTarget {f : Target → Lower α} {g : Target → Sketch α}
    (h : Refines target (f target) (g target)) :
    Refines target (getTarget >>= f) (.silent getTarget >>= g) := by
  intro s items scopes a s' htarget hitems hrun
  subst htarget
  obtain ⟨p, s₁, hp, htarget₁, hexits, rfl⟩ := h s items scopes a s' rfl hitems hrun
  refine ⟨.sequence .nothing p, s₁, sketch_bind_of_eq_ok rfl hp, htarget₁, ?_, ?_⟩
  · simpa [Program.exits, Program.length] using hexits
  · simp [Program.exits, Program.code, Program.length]

theorem refines_emit (i : Instruction) :
    Refines target (discard (emit i)) (write (.instruction i)) := by
  intro s items scopes a s' htarget _ hrun
  have hrun : (emit i >>= fun _ => pure ()) (withCode s items scopes) = .ok (a, s') := hrun
  rw [bind_of_eq_ok (emit_withCode s items scopes i)] at hrun
  cases hrun
  exact ⟨.instruction i, s, rfl, htarget, by simp [Program.exits], by
    simp [Program.exits, Program.code]⟩

/-- A piece that finds out something and appends an instruction. -/
theorem refines_emit_after {x : Lower α} {instruction : α → Instruction} (h : Oblivious target x) :
    Refines target (do let a ← x; discard (emit (instruction a)))
      (do let a ← Sketch.silent x; write (.instruction (instruction a))) :=
  refines_bind (refines_silent h) fun _ => refines_emit _

theorem refines_eval (hash : UInt32) (context : Code.Context) :
    Refines target (emitEval hash context) (writeEval hash context) := by
  have htarget : Oblivious target functionTarget := by
    intro s items scopes a s' htarget h
    cases h
    exact ⟨s, rfl, htarget, rfl⟩
  have hemit : emitEval hash context = (do
      let target ← functionTarget
      discard (emit (.localVariable (ScriptFunction.evalOpcode target context) hash))) := by
    funext s
    rfl
  rw [hemit]
  exact refines_emit_after htarget

theorem refines_number (value : Number.Constant) :
    Refines target (emitNumber value) (writeNumber value) := by
  have hemit : emitNumber value = (do
      let value ← (value.checked : Except CompileError Number.Constant)
      discard (emit (.number value))) := by
    funext s
    simp only [emitNumber, ScriptFunction.addNumber]
    cases value.checked <;> rfl
  rw [hemit]
  have hsilent : Silent target [] (liftM value.checked) nothingLearned := .except value.checked
  exact refines_emit_after hsilent.oblivious

theorem oblivious_modifyTables (f : Reference.Tables → Nat × Reference.Tables) :
    Oblivious target (modifyTables f) := by
  intro s items scopes a s' htarget h
  cases h
  exact ⟨_, rfl, htarget, rfl⟩

theorem oblivious_hashName64 (name : String) : Oblivious target (hashName64 name) := by
  intro s items scopes value s' htarget h
  obtain ⟨names, hnames, rfl⟩ := hashName64_eq_ok.mp h
  exact ⟨withNames s names, hashName64_eq_ok.mpr ⟨names, hnames, rfl⟩, htarget, rfl⟩

theorem refines_loopJump (kind : LoopJump) (levels : Nat) :
    Refines target (discard (updateFunction fun f => f.addLoopJump kind levels))
      (write (.loopJump kind (max levels 1 - 1))) := by
  intro s items scopes a s' htarget _ hrun
  have hrun : (updateFunction (fun f => f.addLoopJump kind levels) >>= fun _ => pure ())
    (withCode s items scopes) = .ok (a, s') := hrun
  obtain ⟨key, s₁', hjump, hrest⟩ := exists_of_bind_eq_ok hrun
  simp only [updateFunction, ScriptFunction.addLoopJump] at hjump
  split at hjump
  · cases hjump
  · rename_i hlevels
    cases hjump
    cases hrest
    refine ⟨.loopJump kind (max levels 1 - 1), s, rfl, htarget, ?_, ?_⟩
    · simpa [Program.exits, withCode] using hlevels
    · simp only [Program.exits, addExits_singleton, Program.code, withCode, ScriptFunction.addJump,
        ScriptFunction.add, Chain.push_ofList]
      rfl

/-! ## Control flow -/

theorem refines_skip {code : Opcode} {body : Lower Unit} {body' : Sketch Unit}
    (hbody : Refines target body body') :
    Refines target (skipOver code body) (skipping code body') := by
  intro s items scopes a s' htarget hitems hrun
  rw [skipOver, emitJump, bind_of_eq_ok (emit_withCode ..)] at hrun
  obtain ⟨_, _, hfirst, hland⟩ := exists_of_bind_eq_ok hrun
  obtain ⟨p, s₁, hp, htarget₁, hexits, rfl⟩ :=
    hbody.exists_of_eq_ok (items.length + 1) hfirst htarget (by simp) (by omega)
  rw [land_append _ _ items code (p.code .unknown (items.length + 1)) (by simp) rfl
    (congrArg _ (p.length_code ..))] at hland
  cases hland
  exact ⟨.skip code p, s₁, wrap_eq_ok.mpr ⟨p, hp, rfl⟩, htarget₁, hexits, rfl⟩

theorem refines_choose {code : Opcode} {body otherwise : Lower Unit}
    {body' otherwise' : Sketch Unit} (hbody : Refines target body body')
    (hotherwise : Refines target otherwise otherwise') :
    Refines target (chooseBetween code body otherwise) (choosing code body' otherwise') := by
  intro s items scopes a s' htarget hitems hrun
  rw [chooseBetween, emitJump, emitJump, bind_of_eq_ok (emit_withCode ..)] at hrun
  obtain ⟨_, _, hfirst, hrun⟩ := exists_of_bind_eq_ok hrun
  obtain ⟨p, s₁, hp, htarget₁, hexits, rfl⟩ :=
    hbody.exists_of_eq_ok (items.length + 1) hfirst htarget (by simp) (by omega)
  have hdone : (items ++ [Instruction.jump code none] ++ p.code .unknown (items.length + 1)).length =
      items.length + 1 + p.length := by
    simp [Program.length_code, Nat.add_assoc, Nat.add_comm]
  rw [bind_of_eq_ok (emit_withCode ..), hdone, bind_of_eq_ok (setTarget_append _ _ items code
    (p.code .unknown (items.length + 1) ++ [.jump .jump none]) (by simp) rfl _)] at hrun
  obtain ⟨_, _, hsecond, hland⟩ := exists_of_bind_eq_ok hrun
  obtain ⟨q, s₂, hq, htarget₂, hexits₂, rfl⟩ := hotherwise.exists_of_eq_ok
    (items.length + 1 + p.length + 1) hsecond htarget₁
    (by simp [Program.length_code]; omega) (by omega)
  rw [land_append _ _ (items ++ .jump code (some (.at (items.length + 1 + p.length))) ::
      p.code .unknown (items.length + 1)) .jump (q.code .unknown (items.length + 1 + p.length + 1))
    (by simp) (by simp only [List.length_append, List.length_cons, Program.length_code]; omega)
    (congrArg _ (q.length_code ..))] at hland
  cases hland
  refine ⟨.choose code p q, s₂, join_eq_ok.mpr ⟨p, s₁, q, hp, hq, rfl⟩, htarget₂, ?_, ?_⟩
  · intro e he
    rcases List.mem_append.mp he with he | he
    · exact hexits e he
    · simpa using hexits₂ e he
  · simp [Program.code, Program.exits, before, addExits_append]

/-! ### Loops -/

/-- The code of the test of a loop, with a jump to the given target behind it. -/
def testCode (position : Nat) (t : Program) (tested : Bool) (exit : Option Key) : List Instruction :=
  if tested then t.code .unknown position ++ [.jump .jumpOnFalse exit] else []

theorem length_testCode (position : Nat) (t : Program) (tested : Bool) (exit : Option Key) :
    (testCode position t tested exit).length = if tested then t.length + 1 else 0 := by
  cases tested <;> simp [testCode, Program.length_code]

theorem exists_of_loopTest {test : Option (Lower Unit × Sketch Unit)}
    (htest : ∀ p ∈ test, Refines target p.1 p.2) {s s' : State} {items : List Instruction}
    {scopes : List (List PendingJump)} {exit : Option Key} {position : Nat}
    (hrun : loopTest (test.map (·.1)) (withCode s items scopes) = .ok (exit, s'))
    (htarget : s.script.target = target) (hlength : items.length = position)
    (hposition : 0 < position) :
    ∃ t s₁, (optional (test.map (·.2))).run s = .ok (((), t), s₁) ∧ s₁.script.target = target ∧
      (∀ e ∈ t.exits position, e.outward < scopes.length) ∧
      (exit = if test.isSome then some (.at (position + t.length)) else none) ∧
      s' = withCode s₁ (items ++ testCode position t test.isSome none)
        (addExits (if test.isSome then t.exits position else []) scopes) := by
  cases test with
  | none =>
      cases hrun
      exact ⟨.nothing, s, rfl, htarget, by simp [Program.exits], rfl, by simp [testCode]⟩
  | some test =>
      obtain ⟨_, _, hcondition, hrun⟩ := exists_of_bind_eq_ok hrun
      obtain ⟨t, s₁, ht, htarget₁, hexits, rfl⟩ :=
        (htest test rfl).exists_of_eq_ok position hcondition htarget hlength hposition
      rw [emitJump, bind_of_eq_ok (emit_withCode ..)] at hrun
      cases hrun
      refine ⟨t, s₁, ht, htarget₁, hexits, ?_, by simp [testCode]⟩
      simp [Program.length_code, hlength]

/-- The end of a loop. -/
theorem exists_of_closing {step : Option (Lower Unit × Sketch Unit)}
    (hstep : ∀ p ∈ step, Refines target p.1 p.2) {s s' : State} {items : List Instruction}
    {scopes : List (List PendingJump)} {top position : Nat} {exit : Option Key}
    (hrun : (match step.map (·.1) with
      | none => closeLoop (before top) exit (before top)
      | some step => do
          let continueAt ← lastKey
          step
          closeLoop (before top) exit continueAt : Lower Unit) (withCode s items scopes) = .ok ((), s'))
    (htarget : s.script.target = target) (hlength : items.length = position)
    (hposition : 0 < position) :
    ∃ q s₁, (optional (step.map (·.2))).run s = .ok (((), q), s₁) ∧ s₁.script.target = target ∧
      (∀ e ∈ q.exits position, e.outward < scopes.length) ∧
      closeLoop (before top) exit (before (if step.isSome then position else top))
        (withCode s₁ (items ++ q.code .unknown position) (addExits (q.exits position) scopes)) =
        .ok ((), s') := by
  cases step with
  | none => exact ⟨.nothing, s, rfl, htarget, by simp [Program.exits], by
      simpa [Program.exits, Program.code] using hrun⟩
  | some step =>
      simp only [Option.map_some] at hrun
      rw [bind_of_eq_ok (lastKey_withCode s scopes (List.length_pos_iff.mp (hlength ▸ hposition))),
        hlength] at hrun
      obtain ⟨_, _, hstepping, hclose⟩ := exists_of_bind_eq_ok hrun
      obtain ⟨q, s₁, hq, htarget₁, hexits, rfl⟩ :=
        (hstep step rfl).exists_of_eq_ok position hstepping htarget hlength hposition
      exact ⟨q, s₁, hq, htarget₁, hexits, hclose⟩

theorem closeLoop_eq {tested : Bool} {s : State} {items : List Instruction}
    {scopes : List (List PendingJump)} {position bottom : Nat} {t : Program}
    (pre post : List Instruction) (hitems : items = pre ++ testCode position t tested none ++ post)
    (hlength : pre.length = position) (hbottom : items.length = bottom) (top continueAt : Key) :
    closeLoop top (if tested then some (.at (position + t.length)) else none) continueAt
        (withCode s items scopes) =
      exitLoop (some continueAt) (before (bottom + 1)) (withCode s
        (pre ++ testCode position t tested (some (before (bottom + 1))) ++ post ++
          [.jump .jump (some top)]) scopes) := by
  rw [closeLoop, emitJump, bind_of_eq_ok (emit_withCode ..), hbottom,
    bind_of_eq_ok (setTarget_append _ _ items .jump [] rfl hbottom _)]
  cases tested with
  | false =>
      subst hitems
      rfl
  | true =>
      simp only [if_true]
      rw [bind_of_eq_ok (setTarget_append _ _ (pre ++ t.code .unknown position) .jumpOnFalse
        (post ++ [.jump .jump (some top)]) (by simp [hitems, testCode])
        (by simp [Program.length_code, hlength]) _)]
      simp [before, testCode]

theorem outward_lt_of_outer? {exits : List Exit} {k : Nat} (h : ∀ e ∈ exits, e.outward < k + 1) :
    ∀ e ∈ exits.filterMap Exit.outer?, e.outward < k := by
  intro e he
  obtain ⟨⟨kind, outward, position⟩, hmem, houter⟩ := List.mem_filterMap.mp he
  have hlt := h _ hmem
  cases outward with
  | zero => cases houter
  | succ outward =>
      cases houter
      exact Nat.lt_of_succ_lt_succ hlt

theorem refines_loop {start body : Lower Unit} {start' body' : Sketch Unit}
    {test step : Option (Lower Unit × Sketch Unit)} (hstart : Refines target start start')
    (htest : ∀ p ∈ test, Refines target p.1 p.2) (hbody : Refines target body body')
    (hstep : ∀ p ∈ step, Refines target p.1 p.2) :
    Refines target (loopThrough start (test.map (·.1)) body (step.map (·.1)))
      (looping start' (test.map (·.2)) body' (step.map (·.2))) := by
  intro s items scopes a s' htarget hitems hrun
  have hpositive := List.length_pos_iff.mpr hitems
  rw [loopThrough, bind_of_eq_ok (enterLoop_withCode ..)] at hrun
  obtain ⟨_, _, hstarting, hrun⟩ := exists_of_bind_eq_ok hrun
  obtain ⟨p, s₁, hp, htarget₁, hexits₁, rfl⟩ := hstart.exists_of_eq_ok _ hstarting htarget rfl hpositive
  rw [bind_of_eq_ok (lastKey_withCode _ _ (by simp [hitems]))] at hrun
  have htop : (items ++ p.code .unknown items.length).length = items.length + p.length := by
    simp [Program.length_code]
  rw [htop] at hrun
  obtain ⟨exit, _, htesting, hrun⟩ := exists_of_bind_eq_ok hrun
  obtain ⟨t, s₂, ht, htarget₂, hexits₂, rfl, rfl⟩ :=
    exists_of_loopTest htest htesting htarget₁ htop (by omega)
  obtain ⟨_, _, hinside, hrun⟩ := exists_of_bind_eq_ok hrun
  generalize htested : test.isSome = tested at hinside hrun
  generalize hinner : items.length + p.length + (if tested then t.length + 1 else 0) = inner
  have hinnerLength : (items ++ p.code .unknown items.length ++
      testCode (items.length + p.length) t tested none).length = inner := by
    rw [List.length_append, htop, length_testCode, hinner]
  obtain ⟨q, s₃, hq, htarget₃, hexits₃, rfl⟩ :=
    hbody.exists_of_eq_ok inner hinside htarget₂ hinnerLength (by omega)
  have hlastLength : (items ++ p.code .unknown items.length ++
      testCode (items.length + p.length) t tested none ++ q.code .unknown inner).length =
      inner + q.length := by
    rw [List.length_append, hinnerLength, Program.length_code]
  obtain ⟨r, s₄, hr, htarget₄, hexits₄, hclose⟩ :=
    exists_of_closing hstep hrun htarget₃ hlastLength (by omega)
  rw [closeLoop_eq (items ++ p.code .unknown items.length)
    (q.code .unknown inner ++ r.code .unknown (inner + q.length)) (by simp) htop
    (by rw [List.length_append, hlastLength, Program.length_code])] at hclose
  have hcode : items ++ p.code .unknown items.length ++
      testCode (items.length + p.length) t tested (some (before (inner + q.length + r.length + 1))) ++
        (q.code .unknown inner ++ r.code .unknown (inner + q.length)) ++
        [.jump .jump (some (before (items.length + p.length)))] =
      items ++ ((Program.lineUp items.length p t q r tested).code .unknown items.length ++ []) := by
    subst hinner
    cases tested <;> simp [Program.lineUp, Program.code, Program.length, testCode, Nat.add_assoc]
  have hexits : p.exits items.length ++ (if tested then t.exits (items.length + p.length) else []) ++
      q.exits inner ++ r.exits (inner + q.length) =
      (Program.lineUp items.length p t q r tested).exits items.length := by
    subst hinner
    cases tested <;> simp [Program.lineUp, Program.exits, Program.length, Nat.add_assoc]
  have hscopes := congrArg (addExits · ([] :: scopes)) hexits
  simp only [addExits_append] at hscopes
  rw [hcode, hscopes, exitLoop_loop, (settles _).foldl_eq .unknown items [] rfl rfl,
    Landings.orElse_unknown] at hclose
  cases hclose
  have hloop := looping_eq_ok.mpr ⟨p, s₁, t, s₂, q, s₃, r, hp, ht, hq, hr, rfl⟩
  rw [Option.isSome_map, Option.isSome_map, htested] at hloop
  refine ⟨_, s₄, hloop, htarget₄, ?_, ?_⟩
  · rw [Program.exits_loop, ← hexits]
    apply outward_lt_of_outer?
    simp only [length_addExits, List.length_cons] at hexits₁ hexits₂ hexits₃ hexits₄
    intro e he
    simp only [List.mem_append] at he
    rcases he with ((he | he) | he) | he
    · exact hexits₁ e he
    · cases tested with
      | false => cases he
      | true => exact hexits₂ e he
    · exact hexits₃ e he
    · exact hexits₄ e he
  · rw [Program.exits_loop, Program.code_loop, hinner, List.append_nil]

/-! ### Switches -/

theorem modify_append_of_lt {items : List Instruction} {i : Nat} (hi : i < items.length)
    (more : List Instruction) (f : Instruction → Instruction) :
    (items ++ more).modify i f = items.modify i f ++ more := by
  apply List.ext_getElem?
  intro j
  by_cases hj : j < items.length
  · rw [List.getElem?_append_left (by simpa using hj), List.getElem?_modify, List.getElem?_modify,
      List.getElem?_append_left hj]
  · have hne : i ≠ j := by omega
    rw [List.getElem?_append_right (by simpa using hj), List.getElem?_modify,
      List.getElem?_append_right (by simpa using hj)]
    simp [hne]

/-- Lets jumps land on a position. -/
def landAll (falling : List Nat) (position : Nat) (items : List Instruction) : List Instruction :=
  falling.foldl (fun items i => items.modify i (Instruction.retarget (before position))) items

@[simp] theorem length_landAll (falling : List Nat) (position : Nat) :
    ∀ items, (landAll falling position items).length = items.length := by
  induction falling with
  | nil => intro items; rfl
  | cons i rest ih =>
      intro items
      exact (ih _).trans (List.length_modify ..)

theorem landAll_concat (falling : List Nat) (i position : Nat) (items : List Instruction) :
    landAll (falling ++ [i]) position items =
      (landAll falling position items).modify i (Instruction.retarget (before position)) := by
  rw [landAll, List.foldl_append]
  rfl

theorem landAll_append {falling : List Nat} (position : Nat) (more : List Instruction) :
    ∀ {items : List Instruction}, (∀ i ∈ falling, i < items.length) →
      landAll falling position (items ++ more) = landAll falling position items ++ more := by
  induction falling with
  | nil => intro items _; rfl
  | cons i rest ih =>
      intro items h
      have hi : i < items.length := h i (by simp)
      have hmodify := modify_append_of_lt hi more (Instruction.retarget (before position))
      have hrest : ∀ j ∈ rest,
          j < (items.modify i (Instruction.retarget (before position))).length := by
        intro j hj
        rw [List.length_modify]
        exact h j (by simp [hj])
      exact (congrArg (landAll rest position) hmodify).trans (ih hrest)

/-- The jumps that wait before a piece of code, and the one behind it. -/
theorem landAll_concat_append {falling : List Nat} {items code : List Instruction} {i : Nat}
    (hfalling : ∀ i ∈ falling, i < items.length) (hlength : (items ++ code).length = i)
    (position : Nat) (opcode : Opcode) :
    landAll (falling ++ [i]) position (items ++ code ++ [.jump opcode none]) =
      landAll falling position items ++ (code ++ [.jump opcode (some (before position))]) := by
  have hjump := modify_append_cons (landAll falling position items ++ code) (.jump opcode none) []
    (Instruction.retarget (before position))
  rw [List.length_append, length_landAll, ← List.length_append, hlength] at hjump
  rw [landAll_concat, List.append_assoc, landAll_append _ _ hfalling, ← List.append_assoc, hjump,
    List.append_assoc]
  rfl

theorem land_all {s : State} {scopes : List (List PendingJump)} (falling : List Nat) :
    ∀ {items : List Instruction}, items ≠ [] →
      (falling.map Key.at).forM land (withCode s items scopes) =
        .ok ((), withCode s (landAll falling items.length items) scopes) := by
  induction falling with
  | nil => intro items _; rfl
  | cons i rest ih =>
      intro items hitems
      have hlength : (items.modify i (Instruction.retarget (before items.length))).length =
          items.length := List.length_modify ..
      have hland : land (.at i) (withCode s items scopes) = .ok ((), withCode s
          (items.modify i (Instruction.retarget (before items.length))) scopes) := by
        rw [land, bind_of_eq_ok (lastKey_withCode s scopes hitems), setTarget_withCode]
      have hrest := ih (List.ne_nil_of_length_pos (hlength ▸ List.length_pos_iff.mpr hitems))
      rw [hlength] at hrest
      exact (bind_of_eq_ok hland).trans hrest

theorem refines_forM {body : List (Lower Unit × Sketch Unit)}
    (h : ∀ p ∈ body, Refines target p.1 p.2) :
    Refines target ((body.map (·.1)).forM id) ((body.map (·.2)).forM id) := by
  induction body with
  | nil => exact refines_silent oblivious_pure
  | cons first rest ih =>
      exact refines_bind (h first (by simp)) fun _ => ih fun p hp => h p (by simp [hp])

/-- A list of statements is not itself a list of branches. -/
theorem entry_of_forM {body : List (Sketch Unit)} {s s' : State} {p : Program}
    (h : (body.forM id : Sketch Unit).run s = .ok (((), p), s')) (position : Nat) :
    p.entry position = position := by
  cases body with
  | nil => cases h; rfl
  | cons first rest =>
      obtain ⟨_, _, _, _, _, _, rfl⟩ := exists_of_sketch_bind_eq_ok h
      rfl

/-- Compares the value of a branch with that of the switch. -/
def caseTest (key : UInt32) (value : Lower Unit) : Lower Unit := do
  value
  emitEval key .plain
  emitOp .equal

theorem refines_caseTest (key : UInt32) {value : Lower Unit} {value' : Sketch Unit}
    (h : Refines target value value') : Refines target (caseTest key value) (branchTest key value') :=
  refines_bind h fun _ => refines_bind (refines_eval key .plain) fun _ => refines_emit _

theorem switchBranches_emptyCase (key : UInt32) (value : Lower Unit) (rest : List SwitchBranch)
    (falling : List Key) :
    switchBranches key (.case value [] :: rest) falling = (do
      caseTest key value
      let taken ← emitJump .jumpOnTrue
      switchBranches key rest (falling ++ [taken])) := by
  simp only [switchBranches, caseTest, bind_assoc]

theorem switchBranches_case (key : UInt32) (value first : Lower Unit) (others : List (Lower Unit))
    (rest : List SwitchBranch) (falling : List Key) :
    switchBranches key (.case value (first :: others) :: rest) falling = (do
      caseTest key value
      let skip ← emitJump .jumpOnFalse
      falling.forM land
      (first :: others).forM id
      land skip
      switchBranches key rest []) := by
  simp only [switchBranches, caseTest, bind_assoc]

variable {key : UInt32}

/-- Whether the branches of a switch, behind which the switch is closed, are laid out as the program
of their sketch.  The jumps of empty branches before them wait for the first statements. -/
def RefinesBranches (target : Target) (key : UInt32) (branches : List PairedBranch) : Prop :=
  ∀ (falling : List Nat) (s : State) (items : List Instruction) (scopes : List (List PendingJump))
    (s' : State), s.script.target = target → items ≠ [] → (∀ i ∈ falling, i < items.length) →
    switchBranches key (branches.map (·.lowered)) (falling.map Key.at) (withCode s items scopes) =
      .ok ((), s') →
    ∃ p s₁, (branching key (branches.map (·.sketched))).run s = .ok (((), p), s₁) ∧
      s₁.script.target = target ∧ (∀ e ∈ p.exits items.length, e.outward < scopes.length) ∧
      closeSwitch (withCode s₁
        (landAll falling (p.entry items.length) items ++ p.code .unknown items.length)
        (addExits (p.exits items.length) scopes)) = .ok ((), s')

theorem refinesBranches_nil : RefinesBranches target key [] := by
  intro falling s items scopes s' htarget hitems hfalling hrun
  refine ⟨.nothing, s, rfl, htarget, by simp [Program.exits], ?_⟩
  have hrun : ((falling.map Key.at).forM land >>= fun _ => closeSwitch) (withCode s items scopes) =
    .ok ((), s') := hrun
  rw [bind_of_eq_ok (land_all falling hitems)] at hrun
  simpa [Program.exits, Program.code, Program.entry] using hrun

theorem refinesBranches_default {body : List (Lower Unit × Sketch Unit)}
    (hbody : ∀ p ∈ body, Refines target p.1 p.2) (rest : List PairedBranch) :
    RefinesBranches target key (⟨none, body⟩ :: rest) := by
  intro falling s items scopes s' htarget hitems hfalling hrun
  have hrun : ((falling.map Key.at).forM land >>= fun _ => (body.map (·.1)).forM id >>= fun _ =>
    closeSwitch) (withCode s items scopes) = .ok ((), s') := hrun
  rw [bind_of_eq_ok (land_all falling hitems)] at hrun
  obtain ⟨_, _, hstatements, hclose⟩ := exists_of_bind_eq_ok hrun
  obtain ⟨p, s₁, hp, htarget₁, hexits, rfl⟩ := (refines_forM hbody).exists_of_eq_ok items.length
    hstatements htarget (length_landAll ..) (List.length_pos_iff.mpr hitems)
  refine ⟨p, s₁, hp, htarget₁, hexits, ?_⟩
  rw [entry_of_forM hp]
  exact hclose

theorem refinesBranches_emptyCase {value : Lower Unit × Sketch Unit}
    (hvalue : Refines target value.1 value.2) {rest : List PairedBranch}
    (hrest : RefinesBranches target key rest) :
    RefinesBranches target key (⟨some value, []⟩ :: rest) := by
  intro falling s items scopes s' htarget hitems hfalling hrun
  rw [List.map_cons] at hrun
  change switchBranches key (.case value.1 [] :: _) _ _ = _ at hrun
  rw [switchBranches_emptyCase] at hrun
  obtain ⟨_, _, htest, hrun⟩ := exists_of_bind_eq_ok hrun
  obtain ⟨t, s₁, ht, htarget₁, hexits, rfl⟩ := (refines_caseTest key hvalue).exists_of_eq_ok
    items.length htest htarget rfl (List.length_pos_iff.mpr hitems)
  rw [emitJump, bind_of_eq_ok (emit_withCode ..)] at hrun
  have hlength : (items ++ t.code .unknown items.length).length = items.length + t.length := by
    simp [Program.length_code]
  rw [hlength, ← List.map_singleton (f := Key.at), ← List.map_append] at hrun
  have hposition : (items ++ t.code .unknown items.length ++ [Instruction.jump .jumpOnTrue none]).length =
      items.length + t.length + 1 := by
    rw [List.length_append, hlength]
    rfl
  have hwaiting : ∀ i ∈ falling ++ [items.length + t.length],
      i < (items ++ t.code .unknown items.length ++ [Instruction.jump .jumpOnTrue none]).length := by
    rw [hposition]
    intro i hi
    rcases List.mem_append.mp hi with hi | hi
    · have := hfalling i hi
      omega
    · have := List.mem_singleton.mp hi
      omega
  obtain ⟨p, s₂, hp, htarget₂, hexits₂, hclose⟩ := hrest _ _ _ _ _ htarget₁ (by simp) hwaiting hrun
  rw [hposition] at hexits₂ hclose
  refine ⟨.emptyCase t p, s₂, join_eq_ok.mpr ⟨t, s₁, p, ht, hp, rfl⟩, htarget₂, ?_, ?_⟩
  · intro e he
    rcases List.mem_append.mp he with he | he
    · exact hexits e he
    · simpa using hexits₂ e he
  · rw [landAll_concat_append hfalling hlength] at hclose
    simpa [Program.code, Program.exits, Program.entry, addExits_append] using hclose

theorem refinesBranches_case {value first : Lower Unit × Sketch Unit}
    {others : List (Lower Unit × Sketch Unit)} (hvalue : Refines target value.1 value.2)
    (hbody : ∀ p ∈ first :: others, Refines target p.1 p.2) {rest : List PairedBranch}
    (hrest : RefinesBranches target key rest) :
    RefinesBranches target key (⟨some value, first :: others⟩ :: rest) := by
  intro falling s items scopes s' htarget hitems hfalling hrun
  rw [List.map_cons] at hrun
  change switchBranches key (.case value.1 (first.1 :: others.map (·.1)) :: _) _ _ = _ at hrun
  rw [switchBranches_case] at hrun
  obtain ⟨_, _, htest, hrun⟩ := exists_of_bind_eq_ok hrun
  obtain ⟨t, s₁, ht, htarget₁, hexits, rfl⟩ := (refines_caseTest key hvalue).exists_of_eq_ok
    items.length htest htarget rfl (List.length_pos_iff.mpr hitems)
  rw [emitJump, bind_of_eq_ok (emit_withCode ..), bind_of_eq_ok (land_all falling (by simp))] at hrun
  have hlength : (items ++ t.code .unknown items.length).length = items.length + t.length := by
    simp [Program.length_code]
  have hposition : (items ++ t.code .unknown items.length ++
      [Instruction.jump .jumpOnFalse none]).length = items.length + t.length + 1 := by
    rw [List.length_append, hlength]
    rfl
  rw [hposition, hlength, List.append_assoc, landAll_append _ _ hfalling] at hrun
  obtain ⟨_, _, hstatements, hrun⟩ := exists_of_bind_eq_ok hrun
  generalize hwaited : landAll falling (items.length + t.length + 1) items = waited at *
  have hwaitedLength : waited.length = items.length := by rw [← hwaited, length_landAll]
  obtain ⟨p, s₂, hp, htarget₂, hexits₂, rfl⟩ := (refines_forM hbody).exists_of_eq_ok
    (items.length + t.length + 1) hstatements htarget₁
    (by simp [hwaitedLength, Program.length_code, Nat.add_assoc]) (by omega)
  rw [bind_of_eq_ok (land_append _ _ (waited ++ t.code .unknown items.length) .jumpOnFalse
    (p.code .unknown (items.length + t.length + 1)) (by simp)
    (by simp [hwaitedLength, Program.length_code]) (congrArg _ (p.length_code ..)))] at hrun
  obtain ⟨q, s₃, hq, htarget₃, hexits₃, hclose⟩ := hrest [] _ _ _ _ htarget₂ (by simp) (by simp) hrun
  have hnext : (waited ++ t.code .unknown items.length ++ Instruction.jump .jumpOnFalse
      (some (before (items.length + t.length + 1 + p.length))) ::
        p.code .unknown (items.length + t.length + 1)).length =
      items.length + t.length + 1 + p.length := by
    simp only [List.length_append, List.length_cons, Program.length_code, hwaitedLength]
    omega
  rw [hnext] at hexits₃ hclose
  refine ⟨.case t p q, s₃, branching_case_eq_ok.mpr ⟨t, s₁, p, s₂, q, ht, hp, hq, rfl⟩, htarget₃, ?_, ?_⟩
  · intro e he
    simp only [Program.exits, List.mem_append] at he
    simp only [length_addExits] at hexits₂ hexits₃
    rcases he with (he | he) | he
    · exact hexits e he
    · exact hexits₂ e he
    · exact hexits₃ e he
  · rw [Program.entry, hwaited]
    simpa [Program.code, Program.exits, addExits_append, landAll] using hclose

theorem refinesBranches {branches : List PairedBranch}
    (hvalues : ∀ b ∈ branches, ∀ p ∈ b.value, Refines target p.1 p.2)
    (hbodies : ∀ b ∈ branches, ∀ p ∈ b.body, Refines target p.1 p.2) :
    RefinesBranches target key branches := by
  induction branches with
  | nil => exact refinesBranches_nil
  | cons b rest ih =>
      have hrest := ih (fun b hb => hvalues b (by simp [hb])) (fun b hb => hbodies b (by simp [hb]))
      obtain ⟨value, body⟩ := b
      have hbody := hbodies _ (List.mem_cons_self ..)
      cases value with
      | none => exact refinesBranches_default hbody rest
      | some value =>
          have hvalue := hvalues _ (List.mem_cons_self ..) value rfl
          cases body with
          | nil => exact refinesBranches_emptyCase hvalue hrest
          | cons first others => exact refinesBranches_case hvalue hbody hrest

theorem refines_store (key : UInt32) : Refines target (emitStore key) (writeStore key) := by
  refine refines_atTarget (f := fun t => if t.isLegacy then _ else _)
    (g := fun t => if t.isLegacy then _ else _) ?_
  split
  · exact refines_bind (refines_eval key .isRef) fun _ => refines_emit _
  · exact refines_emit _

theorem refines_switch {value : Lower Unit} {value' : Sketch Unit} {branches : List PairedBranch}
    (hvalue : Refines target value value')
    (hvalues : ∀ b ∈ branches, ∀ p ∈ b.value, Refines target p.1 p.2)
    (hbodies : ∀ b ∈ branches, ∀ p ∈ b.body, Refines target p.1 p.2) :
    Refines target (switchOn key value (branches.map (·.lowered)))
      (switching key value' (branches.map (·.sketched))) := by
  intro s items scopes a s' htarget hitems hrun
  have hpositive := List.length_pos_iff.mpr hitems
  rw [switchOn, bind_of_eq_ok (enterLoop_withCode ..)] at hrun
  obtain ⟨_, _, hfirst, hrun⟩ := exists_of_bind_eq_ok hrun
  obtain ⟨p, s₁, hp, htarget₁, hexits₁, rfl⟩ := hvalue.exists_of_eq_ok _ hfirst htarget rfl hpositive
  obtain ⟨_, _, hsecond, hrun⟩ := exists_of_bind_eq_ok hrun
  obtain ⟨q, s₂, hq, htarget₂, hexits₂, rfl⟩ := (refines_store key).exists_of_eq_ok
    (items.length + p.length) hsecond htarget₁ (by simp [Program.length_code]) (by omega)
  obtain ⟨r, s₃, hr, htarget₃, hexits₃, hclose⟩ := refinesBranches hvalues hbodies [] _ _ _ _ htarget₂
    (by simp [hitems]) (by simp) hrun
  have hlength : (items ++ p.code .unknown items.length ++
      q.code .unknown (items.length + p.length)).length = items.length + p.length + q.length := by
    simp [Program.length_code, Nat.add_assoc]
  rw [hlength] at hexits₃ hclose
  let body := Program.sequence p (.sequence q r)
  have hcode : items ++ p.code .unknown items.length ++ q.code .unknown (items.length + p.length) ++
      r.code .unknown (items.length + p.length + q.length) =
      items ++ (body.code .unknown items.length ++ []) := by
    simp [body, Program.code]
  have hexits : addExits (r.exits (items.length + p.length + q.length))
      (addExits (q.exits (items.length + p.length)) (addExits (p.exits items.length) ([] :: scopes))) =
      addExits (body.exits items.length) ([] :: scopes) := by
    simp [body, Program.exits, addExits_append]
  have hend : (items ++ (body.code .unknown items.length ++ [])).length =
      items.length + body.length := by
    simp [Program.length_code]
  rw [landAll, List.foldl_nil, hcode, hexits, closeSwitch,
    bind_of_eq_ok (lastKey_withCode _ _ (by simp [hitems])), hend] at hclose
  obtain ⟨hhanded, rfl⟩ := exitLoop_switch _ _ hclose
  rw [(settles body).foldl_eq .unknown items [] rfl rfl, Landings.orElse_unknown]
  refine ⟨.switch body, s₃,
    wrap_eq_ok.mpr ⟨body, sketch_bind_of_eq_ok hp (sketch_bind_of_eq_ok hq hr), rfl⟩, htarget₃, ?_, by simp [Program.code, Program.exits]⟩
  intro e he
  rcases List.mem_append.mp he with he | he
  · refine outward_lt_of_outer? ?_ e he
    simp only [length_addExits, List.length_cons] at hexits₁ hexits₂ hexits₃
    intro e he
    simp only [body, Program.exits, List.mem_append] at he
    rcases he with he | he | he
    · exact hexits₁ e he
    · exact hexits₂ e he
    · exact hexits₃ e he
  · exact hhanded e he

/-- What follows a sketch lays out the program of the sketch. -/
theorem refines_of_follows {known : List UInt32} {x : Lower α} {y : Sketch α}
    {learned : α → List UInt32} (h : Follows target known x y learned) : Refines target x y := by
  induction h with
  | silent h => exact refines_silent h.oblivious
  | bind _ _ ihx ihf => exact refines_bind ihx ihf
  | atTarget _ ih => exact refines_atTarget ih
  | emit i _ _ => exact refines_emit i
  | eval context _ => exact refines_eval _ context
  | number value => exact refines_number value
  | canonicalHash name => exact refines_emit_after (oblivious_hashName64 name)
  | string _ _ | debugString _ _ | global _ _ _ | call _ _ | functionPointer _ _ =>
      exact refines_emit_after (oblivious_modifyTables _)
  | skip _ _ ih => exact refines_skip ih
  | choose _ _ _ ihBody ihOtherwise => exact refines_choose ihBody ihOtherwise
  | loop _ _ _ _ _ _ ihStart ihTest ihBody ihStep => exact refines_loop ihStart ihTest ihBody ihStep
  | switch _ _ _ _ _ ihValue ihValues ihBodies => exact refines_switch ihValue ihValues ihBodies
  | loopJump kind levels => exact refines_loopJump kind levels

end Pieces

end GscAssembler.Control
