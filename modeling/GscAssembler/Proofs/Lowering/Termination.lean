import GscAssembler.Proofs.Control.Built
import GscAssembler.Proofs.Lowering.WorkStack

/-!
# Lowering comes to an end

The machine is started on a function with the tasks for the defaults of its parameters, its body and
its end.  However the macros refer to each other, it gets to the last task or stops at an error, and
no macro is being expanded in the end.  Only if the macros refer to each other in a circle can the
error be that a macro leads back to itself.
-/

namespace GscAssembler.Lowering

open Control (except_bind_eq_error macroTable)
open SyntaxTree (Node)

variable {given : Prop} {v : Vocabulary}

/-! ## The locals of a function -/

instance (n : Node) [Known given v n] : Orderly given v (declareIdentifier n) := by
  unfold declareIdentifier
  infer_instance

mutual

theorem orderly_declareBound : ∀ n : Node, Known given v n → Orderly given v (declareBound n)
  | .mk kind text value children, hn => by
      have := orderly_declareBoundReversed children fun _ => hn.child
      rw [declareBound]
      infer_instance

theorem orderly_declareBoundReversed : ∀ nodes : List Node, (∀ n ∈ nodes, Known given v n) →
    Orderly given v (declareBoundReversed nodes)
  | [], _ => by
      rw [declareBoundReversed]
      infer_instance
  | n :: rest, h => by
      have := orderly_declareBound n (h n List.mem_cons_self)
      have := orderly_declareBoundReversed rest fun m hm => h m (List.mem_cons_of_mem _ hm)
      rw [declareBoundReversed]
      infer_instance

end

instance (what : String) (index : Nat) : Orderly given v (declareSynthetic what index) := by
  have : Known given v ("$" ++ what ++ toString index) := by
    rw [String.append_assoc]
    infer_instance
  exact inferInstanceAs (Orderly given v (declare _))

instance (r : Reserved) : Orderly given v (reserveForeach r) := by
  unfold reserveForeach
  infer_instance

instance (r : Reserved) : Orderly given v (reserveSwitch r) := by
  unfold reserveSwitch
  infer_instance

theorem orderly_declareIdentifiers {nodes : List Node} (h : ∀ n ∈ nodes, Known given v n) :
    Orderly given v (nodes.forM declareIdentifier) :=
  orderly_forM fun n hn => have := h n hn; inferInstance

theorem orderly_reserveFor {n : Node} (hn : Known given v n) (r : Reserved) :
    Orderly given v (reserveFor n r) := by
  have hsome (count : Nat) : Orderly given v ((n.children.take count).forM declareIdentifier) :=
    orderly_declareIdentifiers fun child hchild => hn.child (List.mem_of_mem_take hchild)
  unfold reserveFor
  split
  · cases hchildren : n.children with
    | nil => exact inferInstanceAs (Orderly given v (pure r))
    | cons child others =>
        have := hn.child (hchildren ▸ List.mem_cons_self)
        exact inferInstanceAs (Orderly given v (declareIdentifier child >>= fun _ => pure r))
  · infer_instance
  · infer_instance
  · infer_instance
  · cases harguments : n.findChild? "arguments" with
    | none => infer_instance
    | some arguments =>
        have harguments : Known given v arguments := hn.child (List.mem_of_find?_eq_some harguments)
        have := orderly_declareBoundReversed (arguments.children.drop 1) fun child hchild =>
          harguments.child (List.mem_of_mem_drop hchild)
        infer_instance
  · infer_instance

mutual

theorem orderly_reserve : ∀ (n : Node) (r : Reserved), Known True v n → Orderly True v (reserve n r)
  | .mk kind text value children, r, hn => by
      have := orderly_reserveFor hn r
      have (r : Reserved) := orderly_reserveAll children r fun _ => hn.child
      rw [reserve]
      infer_instance

theorem orderly_reserveAll : ∀ (nodes : List Node) (r : Reserved), (∀ n ∈ nodes, Known True v n) →
    Orderly True v (reserveAll nodes r)
  | [], r, _ => by
      rw [reserveAll]
      infer_instance
  | n :: rest, r, h => by
      have := orderly_reserve n r (h n List.mem_cons_self)
      have (r : Reserved) := orderly_reserveAll rest r fun m hm => h m (List.mem_cons_of_mem _ hm)
      rw [reserveAll]
      infer_instance

end

instance (body : Node) [hbody : Known True v body] : Orderly True v (collectLocals body) := by
  have := orderly_reserve body {} hbody
  have (r : Reserved) : Orderly True v (modifyFunction fun f =>
      { f with
        switchKeys := r.switches.toList ++ f.switchKeys
        foreachKeys := r.foreaches.toList ++ f.foreachKeys }) :=
    @orderly_step _ True v _ (.reserve r.switches.toList r.foreaches.toList) (fun _ => trivial)
      fun _ _ => trivial
  unfold collectLocals
  infer_instance

/-- The defaults of the parameters are in the tree, which decides how to go on. -/
theorem orderly_declareParameters {parameters : List Node} (h : ∀ n ∈ parameters, Known True v n) :
    ∀ {given : Prop} {f : List (UInt32 × Node) → Lower Unit},
      (∀ defaults, (∀ p ∈ defaults, Known True v p.2) → Orderly given v (f defaults)) →
      Orderly given v (declareParameters parameters >>= f) := by
  induction parameters with
  | nil => exact fun hf => hf [] fun _ hmem => absurd hmem List.not_mem_nil
  | cons parameter rest ih =>
      intro given f hf
      have hparameter := h parameter List.mem_cons_self
      have : Known given v parameter := ⟨fun _ => hparameter.known trivial⟩
      simp only [declareParameters, bind_assoc]
      refine orderly_then fun name => orderly_then fun hash => ?_
      refine ih (fun n hn => h n (List.mem_cons_of_mem _ hn)) fun others hothers => ?_
      cases hchildren : parameter.children with
      | nil =>
          have := hf others hothers
          exact inferInstanceAs (Orderly _ v (f others))
      | cons value more =>
          have := hf ((hash, value) :: others) fun p hp => by
            rcases List.mem_cons.mp hp with rfl | hp
            · exact hparameter.child (hchildren ▸ List.mem_cons_self)
            · exact hothers p hp
          exact inferInstanceAs (Orderly _ v (f ((hash, value) :: others)))

/-! ## The body of a function -/

/-- Lowering a function is orderly if lowering its parts is. -/
theorem orderly_lowerBody_of_nodes {macros : Macros}
    (hnode : ∀ n, Known True v n → Orderly True v (lowerNode macros n .plain))
    {parameters : List Node} (hparameters : ∀ n ∈ parameters, Known True v n) {body : Node}
    (hbody : Known True v body) : Orderly True v (lowerBody macros parameters body) := by
  refine orderly_declareParameters hparameters fun defaults hdefaults => ?_
  have := hnode body hbody
  have : Orderly True v
      (defaults.forM fun p => defaultParameter p.1 (lowerNode macros p.2 .plain)) :=
    orderly_forM fun p hp => have := hnode p.2 (hdefaults p hp); inferInstance
  infer_instance

/-- Lowering a function finds a cyclic macro only if there is one. -/
theorem orderly_lowerBody (table : MacroTable) (parameters : List Node) (body : Node) :
    Orderly True (.all (Cyclic table)) (lowerBody (macrosOf table) parameters body) := by
  refine orderly_lowerBody_of_nodes (fun n _ => ?_) (fun _ _ => inferInstance) inferInstance
  rw [← macrosDuring_nil]
  exact orderly_lowerNode_of_path (path_nil table n) .plain

/-- Declares the parameters and locals of a function, and lists the parameters with a default. -/
def declareAll (parameters : List Node) (body : Node) : Lower (List (UInt32 × Node)) := do
  let defaults ← declareParameters parameters
  collectLocals body
  return defaults

/-- The tasks of a function, whose parameters and locals are declared. -/
def bodyTasks (defaults : List (UInt32 × Node)) (body : Node) : List Task :=
  defaults.map (fun parameter => .resume (.defaultParameter parameter.1 parameter.2)) ++
    [.node body .plain, .resume (.op .endFunction)]

/-- Lowers the body of a function by a number of steps of the machine. -/
def Machine.runBody (table : MacroTable) (steps : Nat) (parameters : List Node) (body : Node)
    (s : State) : Except Fault Machine := do
  let (defaults, s) ← perform (declareAll parameters body) s
  Machine.run table steps ⟨s, [], bodyTasks defaults body⟩

theorem perform_lowerBody (table : MacroTable) (parameters : List Node) (body : Node) :
    perform (lowerBody (macrosOf table) parameters body) = (do
      let defaults ← perform (declareAll parameters body)
      forM (bodyTasks defaults body) (Task.code (macrosDuring table []))) := by
  unfold lowerBody declareAll bodyTasks
  simp only [perform_bind, perform_pure, bind_assoc, pure_bind, macrosDuring_nil]
  simp [Task.code]

theorem ne_endMacro_of_mem_bodyTasks {defaults : List (UInt32 × Node)} {body : Node} {t : Task}
    (h : t ∈ bodyTasks defaults body) : t ≠ .endMacro := by
  rintro rfl
  simp [bodyTasks] at h

/-- The machine does what recursion does, and expands no macro in the end. -/
theorem exists_runBody (table : MacroTable) (parameters : List Node) (body : Node) (s : State) :
    ∃ steps, Machine.runBody table steps parameters body s =
      (perform (lowerBody (macrosOf table) parameters body) s).map fun r => ⟨r.2, [], []⟩ := by
  rw [perform_lowerBody]
  change ∃ steps, (perform (declareAll parameters body) s).bind _ =
    ((perform (declareAll parameters body) s).bind _).map _
  cases perform (declareAll parameters body) s with
  | error f => exact ⟨0, rfl⟩
  | ok r =>
      obtain ⟨steps, hrun⟩ := @exists_run_code table [] _
        (fun _ => @ne_endMacro_of_mem_bodyTasks r.1 body _) r.2 []
      rw [List.append_nil] at hrun
      exact ⟨steps, hrun⟩

/-! ## The macros that are being expanded -/

section Nesting

variable {table : MacroTable} {expanding expanding' : List String} {s s' : State}

theorem expanding_eq_of_bind {x : Attempt (List Task)} {next : List Task}
    (h : (do return (← x, expanding) : Attempt (List Task × List String)) s =
      .ok ((next, expanding'), s')) : expanding' = expanding := by
  obtain ⟨r, -, hresult⟩ := Control.except_bind_eq_ok.mp (show (x s).bind _ = _ from h)
  cases hresult
  rfl

/-- No task begins to expand a macro that is being expanded. -/
theorem nodup_of_start {t : Task} {next : List Task}
    (h : t.start table expanding s = .ok ((next, expanding'), s')) (hnodup : expanding.Nodup) :
    expanding'.Nodup := by
  cases t with
  | node n context =>
      rw [Task.start] at h
      cases hnamed : table.named? n with
      | none =>
          rw [hnamed] at h
          rw [expanding_eq_of_bind h]
          exact hnodup
      | some found =>
          rw [hnamed] at h
          dsimp only at h
          split at h
          · cases h
          · cases h
            exact List.nodup_cons.mpr ⟨‹_›, hnodup⟩
  | resume k =>
      rw [expanding_eq_of_bind h]
      exact hnodup
  | endMacro =>
      cases h
      exact hnodup.sublist (List.tail_sublist expanding)

theorem Machine.nodup_of_step {m m' : Machine} (h : m.step table = .ok m')
    (hnodup : m.expanding.Nodup) : m'.expanding.Nodup := by
  unfold Machine.step at h
  split at h
  · cases h
    exact hnodup
  · obtain ⟨⟨⟨next, expanding'⟩, s'⟩, hstart, hresult⟩ := Control.except_bind_eq_ok.mp h
    cases hresult
    exact nodup_of_start hstart hnodup

theorem Machine.nodup_of_run {steps : Nat} :
    ∀ {m m' : Machine}, m.run table steps = .ok m' → m.expanding.Nodup → m'.expanding.Nodup := by
  induction steps with
  | zero =>
      intro m m' h hnodup
      cases h
      exact hnodup
  | succ steps ih =>
      intro m m' h hnodup
      obtain ⟨m₁, hstep, hrest⟩ := Control.except_bind_eq_ok.mp h
      exact ih hrest (Machine.nodup_of_step hstep hnodup)

theorem nodup_of_runBody {steps : Nat} {parameters : List Node} {body : Node} {m : Machine}
    (h : Machine.runBody table steps parameters body s = .ok m) : m.expanding.Nodup := by
  obtain ⟨⟨defaults, s'⟩, -, hrun⟩ := Control.except_bind_eq_ok.mp h
  exact Machine.nodup_of_run hrun .nil

end Nesting

/-! ## The tree of a script -/

theorem child_ne_cyclic (n : Node) (position : Nat) : n.child position ≠ .error cyclicError := by
  unfold Node.child
  split
  · exact nofun
  · exact fun h => malformed_ne_cyclic n (by decide) (Except.error.inj h)

theorem setNamespace_ne_cyclic (script : Script) (name : String) :
    script.setNamespace name ≠ .error cyclicError :=
  bind_ne_cyclic (hash_ne_cyclic script name) fun _ => nofun

theorem add_ne_cyclic (o : Outline) (item : Node) : o.add item ≠ .error cyclicError := by
  unfold Outline.add
  split
  · exact nofun
  · exact bind_ne_cyclic (text_ne_cyclic item) fun _ => nofun
  · exact bind_ne_cyclic (text_ne_cyclic item) fun _ =>
      bind_ne_cyclic (child_ne_cyclic item 0) fun _ => nofun
  · refine bind_ne_cyclic (text_ne_cyclic item) fun name => ?_
    dsimp only
    split <;> exact nofun
  · exact nofun

theorem foldlM_add_ne_cyclic (items : List Node) :
    ∀ o : Outline, items.foldlM Outline.add o ≠ .error cyclicError := by
  induction items with
  | nil => exact fun _ => nofun
  | cons item rest ih =>
      intro o
      rw [List.foldlM_cons]
      exact bind_ne_cyclic (add_ne_cyclic o item) ih

theorem cyclic_of_lowerFunction {table : MacroTable} {n : Node} {script : Script}
    (h : lowerFunction (macrosOf table) n script = .error cyclicError) : Cyclic table := by
  unfold lowerFunction at h
  rcases except_bind_eq_error.mp h with h | ⟨text, -, h⟩
  · exact absurd h (text_ne_cyclic n)
  dsimp only at h
  cases hblock : n.findChild? "block" with
  | none =>
      rw [hblock] at h
      exact absurd (Except.error.inj h) (malformed_ne_cyclic n (by decide))
  | some body =>
      rw [hblock] at h
      rcases except_bind_eq_error.mp h with h | ⟨-, -, h⟩
      · unfold requireAtMost at h
        split at h <;> cases h
      rcases except_bind_eq_error.mp h with h | ⟨hashed, -, h⟩
      · exact absurd h (hash_ne_cyclic script _)
      rcases except_bind_eq_error.mp h with h | ⟨lowered, -, h⟩
      · exact (orderly_lowerBody table _ body).reason h
      · cases h

theorem cyclic_of_addFunction {table : MacroTable} {n : Node} {script : Script}
    (h : addFunction (macrosOf table) script n = .error cyclicError) : Cyclic table := by
  rcases except_bind_eq_error.mp h with h | ⟨lowered, -, h⟩
  · exact cyclic_of_lowerFunction h
  rcases except_bind_eq_error.mp h with h | ⟨added, -, h⟩
  · unfold Script.addFunction at h
    split at h <;> cases h
  · cases h

theorem cyclic_of_foldlM_addFunction {table : MacroTable} (nodes : List Node) :
    ∀ {script : Script}, nodes.foldlM (addFunction (macrosOf table)) script = .error cyclicError →
      Cyclic table := by
  induction nodes with
  | nil => exact fun h => by cases h
  | cons n rest ih =>
      intro script h
      rw [List.foldlM_cons] at h
      rcases except_bind_eq_error.mp h with h | ⟨next, -, h⟩
      · exact cyclic_of_addFunction h
      · exact ih h

/-- A tree whose lowering finds a cyclic macro has one. -/
theorem cyclic_of_buildScript {settings : Settings} {root : Node}
    (h : buildScript settings root = .error cyclicError) : Cyclic (macroTable root) := by
  have hitems (script : Script)
      (h : (root.children.foldlM Outline.add { script } >>= fun outline =>
        outline.functions.reverse.foldlM (addFunction (macrosOf outline.macroTable))
          outline.script) = .error cyclicError) : Cyclic (macroTable root) := by
    rcases except_bind_eq_error.mp h with h | ⟨outline, houtline, h⟩
    · exact absurd h (foldlM_add_ne_cyclic root.children _)
    · obtain ⟨-, hmacros, -⟩ := Control.foldlM_add_eq_ok root.children houtline
      have hcyclic := cyclic_of_foldlM_addFunction _ h
      rwa [hmacros] at hcyclic
  unfold buildScript at h
  dsimp only at h
  split at h
  · exact absurd (Except.error.inj h) (malformed_ne_cyclic root (by decide))
  cases hnamespace : root.findChild? "namespace" with
  | none =>
      rw [hnamespace] at h
      exact hitems _ h
  | some n =>
      rw [hnamespace] at h
      rcases except_bind_eq_error.mp h with h | ⟨name, -, h⟩
      · exact absurd h (text_ne_cyclic n)
      rcases except_bind_eq_error.mp h with h | ⟨script, -, h⟩
      · exact absurd h (setNamespace_ne_cyclic _ name)
      · exact hitems script h

/-- Lowering comes to an end for every tree: the machine does all tasks of a function, or stops where
recursion does, and expands no macro in the end.  It never expands a macro inside itself, and it only
reports a cyclic macro if there is one. -/
theorem lowering_terminates (settings : Settings) (root : Node) :
    (∀ (parameters : List Node) (body : Node) (s : State),
      (∃ steps, Machine.runBody (macroTable root) steps parameters body s =
        match lowerBody (macrosOf (macroTable root)) parameters body s with
        | .ok ((), s') => .ok ⟨s', [], []⟩
        | .error e => .error (.error e)) ∧
      (∀ steps m, Machine.runBody (macroTable root) steps parameters body s = .ok m →
        m.expanding.Nodup) ∧
      (lowerBody (macrosOf (macroTable root)) parameters body s = .error cyclicError →
        Cyclic (macroTable root))) ∧
    (buildScript settings root = .error cyclicError → Cyclic (macroTable root)) := by
  refine ⟨fun parameters body s => ⟨?_, fun _ _ => nodup_of_runBody,
    (orderly_lowerBody _ parameters body).reason⟩, cyclic_of_buildScript⟩
  obtain ⟨steps, hrun⟩ := exists_runBody (macroTable root) parameters body s
  refine ⟨steps, hrun.trans ?_⟩
  unfold perform
  cases lowerBody (macrosOf (macroTable root)) parameters body s <;> rfl

/-- A script with two macros that stand for each other, one of which is used. -/
def mutualMacros : Node :=
  .mk "script" none none [
    .mk "globals" (some "A") none [Control.leafNode "identifier" "b"],
    .mk "globals" (some "b") none [Control.leafNode "identifier" "a"],
    .mk "function" (some "f") none [
      .mk "block" none none [
        .mk "return" none none [Control.leafNode "identifier" "a"]]]]

theorem eq_error_of_map {ε α β : Type} {x : Except ε α} {f : α → β} {e : ε}
    (h : x.map f = .error e) : x = .error e := by
  cases x <;> simp_all [Except.map]

theorem lowering_terminates_mutualMacros :
    buildScript {} mutualMacros = .error cyclicError ∧ Cyclic (macroTable mutualMacros) := by
  have hfails : (buildScript {} mutualMacros).map (fun _ => ()) = .error cyclicError := by
    decide +kernel
  have hfound := eq_error_of_map hfails
  exact ⟨hfound, (lowering_terminates {} mutualMacros).2 hfound⟩

end GscAssembler.Lowering
