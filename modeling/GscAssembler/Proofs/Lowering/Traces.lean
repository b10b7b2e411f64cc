import GscAssembler.Proofs.Lowering.Reservation

/-!
# What the machine keeps up

After each task the machine is ready for those that are left (`Outcome.of_start`).  With a log of the
tasks it has done, this is an invariant (`Traced`): the log says to which occurrence of a construct each
instruction belongs, and the variables of the switches and loops over arrays that are begun, that are
planned and that nobody has asked for yet are those that were reserved.  It holds before the first task,
each step keeps it, and so does a run.
-/

namespace GscAssembler.Lowering

open Code (Annotates Chain Context Fact ForeachLocals Instruction Key Opcode ScriptFunction)
open Control (parametersOf startOf)
open SyntaxTree (Node)

variable {c : Setting} {opened : List Occurrence} {s s' : State} {next rest : List Task}

/-! ## One task -/

/-- Beginning with a node. -/
theorem keeps_node {kind : Kind} {n : Node} {context : Context}
    (hkind : Kind.ofName? n.kind = some kind) (hsource : c.source = none)
    (hown : ∀ name ∈ (Task.node n context).names, ∀ x,
      Name.hash? c.target.revision name = some x → c.own x) :
    Keeps c opened (.node n context) (kind.plan n context) := by
  have quiet {x : Attempt (List Task)} (hx : Quiet c.target.revision x) :
      Keeps c opened (.node n context) x :=
    hx.keeps_task (fun _ => rfl) (fun _ => rfl) fun _ => rfl
  simp only [Task.names, hkind] at hown
  cases kind with
  | whileStatement => exact rule_while
  | forStatement => exact rule_for
  | switchStatement => exact rule_switch
  | jumpStatement => exact rule_loopJump
  | identifier =>
      exact rule_name hsource (fun name hname => hown name (Option.mem_toList.mpr hname))
  | foreachSingle =>
      exact rule_foreach false (fun child hchild name hname =>
        hown name (List.mem_filterMap.mpr ⟨child, hchild, hname⟩))
  | foreachDouble =>
      exact rule_foreach true (fun child hchild name hname =>
        hown name (List.mem_filterMap.mpr ⟨child, hchild, hname⟩))
  | sequence => exact quiet quiet_children
  | ifStatement => exact quiet (quiet_if false)
  | conditional => exact quiet (quiet_if true)
  | returnStatement => exact quiet quiet_returnStatement
  | wait => exact quiet (quiet_unary .wait)
  | boolNot => exact quiet (quiet_unary .boolNot)
  | size => exact quiet (quiet_unary .sizeOf)
  | simpleCall => exact quiet (quiet_step fun _ => quiet_return (by simp))
  | call => exact quiet quiet_call
  | assignment => exact quiet quiet_assignment
  | shortHandArray => exact quiet (quiet_throw _)
  | directAccess => exact quiet quiet_field
  | definedAccess => exact quiet quiet_definedField
  | element => exact quiet quiet_element
  | booleanExpression => exact quiet quiet_boolean
  | relationalExpression => exact quiet (quiet_binary Code.compareOp?)
  | expression => exact quiet (quiet_binary Code.mathOp?)
  | coalesce => exact quiet quiet_coalesce
  | typeComparison => exact quiet (quiet_typeTest false)
  | typeComparisonInverted => exact quiet (quiet_typeTest true)
  | castOp => exact quiet quiet_cast
  | vector => exact quiet quiet_vector
  | functionPointer => exact quiet quiet_functionPointer
  | stringLiteral | localizedString => exact quiet (quiet_step fun _ => quiet_leaf)
  | waitTillFrameEnd | newArray | debugString | hashedString | canonicalHash | numberLiteral =>
      exact quiet quiet_leaf

/-- Going on with a construct. -/
theorem keeps_continuation {k : Continuation} {number : Nat} (hproper : k.Proper c opened)
    (hsource : c.source = (Task.resume k).occurrence? number)
    (hopened : ∀ o ∈ (Task.resume k).opens?, o ∈ opened) : k.Keeps c opened := by
  cases k with
  | op | number | call => exact quiet_leaf.keeps_task (fun _ => rfl) (fun _ => rfl) fun _ => rfl
  | field code hash =>
      exact Quiet.keeps_task (quiet_leaf (x := discard (emit (.field code hash)))) (fun _ => rfl)
        (fun _ => rfl) fun _ => rfl
  | callPointer code params =>
      exact Quiet.keeps_task (quiet_leaf (x := discard (emit (.callPointer code params)))) (fun _ => rfl)
        (fun _ => rfl) fun _ => rfl
  | notification code params =>
      exact Quiet.keeps_task (quiet_leaf (x := discard (emit (.notification code params)))) (fun _ => rfl)
        (fun _ => rfl) fun _ => rfl
  | object => exact quiet_object.keeps_task (fun _ => rfl) (fun _ => rfl) fun _ => rfl
  | land jump => exact rule_land
  | branch body otherwise => exact rule_branch
  | otherwise skip n => exact rule_otherwise
  | shortCircuit code right => exact rule_shortCircuit
  | coalesce temp right => exact rule_coalesce hsource
  | definedAccess temp field context => exact rule_definedAccess hsource
  | store x => exact rule_store hproper
  | defaultParameter x value => exact rule_defaultParameter hproper
  | whileBody header body => exact rule_whileBody
  | forHeader condition step body => exact rule_forHeader
  | forBody header tested step body => exact rule_forBody
  | forStep header exit step => exact rule_forStep
  | closeLoop header exit continueAt => exact rule_closeLoop
  | foreachBody locals key value body =>
      exact rule_foreachBody hsource (hopened _ rfl) hproper.1 hproper.2
  | foreachStep locals key header exit => exact rule_foreachStep hsource hproper.1
  | switchStore key branches => exact rule_switchStore hsource (hopened _ rfl)
  | switchCase key branches position falling => exact rule_switchCase hproper
  | switchTest key branches position falling => exact rule_switchTest hsource hproper
  | switchEnd => exact rule_switchEnd

section Tasks

variable {table : MacroTable} {expanding expanding' : List String}

theorem eq_ok_of_bind {x : Attempt (List Task)}
    (h : (do return (← x, expanding) : Attempt (List Task × List String)) s =
      .ok ((next, expanding'), s')) : x s = .ok (next, s') := by
  obtain ⟨r, hr, hresult⟩ := Control.except_bind_eq_ok.mp (show (x s).bind _ = _ from h)
  cases hresult
  exact hr

/-- Whatever the next task is, the machine is ready for what it plans. -/
theorem Outcome.of_start {t : Task} (hproper : t.Proper c opened) (number : Nat)
    (hsource : c.source = t.occurrence? number) (hopened : ∀ o ∈ t.opens?, o ∈ opened)
    (hown : ∀ name ∈ t.names, ∀ x, Name.hash? c.target.revision name = some x → c.own x)
    (h : Ready c s (t :: rest))
    (hrun : t.start table expanding s = .ok ((next, expanding'), s')) :
    Outcome c opened s' next rest := by
  cases t with
  | node n context =>
      rw [Task.start] at hrun
      cases hnamed : table.named? n with
      | none =>
          rw [hnamed] at hrun
          have hrun := eq_ok_of_bind hrun
          unfold planNode at hrun
          cases hkind : Kind.ofName? n.kind with
          | none =>
              rw [hkind] at hrun
              cases hrun
          | some kind =>
              rw [hkind] at hrun
              exact keeps_node hkind hsource hown h hrun
      | some found =>
          rw [hnamed] at hrun
          dsimp only at hrun
          split at hrun
          · cases hrun
          · cases hrun
            exact .of_ready h (by simp [Task.Proper]) rfl
  | resume k => exact keeps_continuation hproper hsource hopened h (eq_ok_of_bind hrun)
  | endMacro =>
      cases hrun
      exact .of_ready h (by simp) rfl

end Tasks

/-! ## A run and its log -/

theorem Task.Proper.mono {c' : Setting} {opened' : List Occurrence} {t : Task}
    (h : t.Proper c opened) (htarget : c'.target = c.target) (hown : ∀ x, c.own x → c'.own x)
    (hopened : opened ⊆ opened') : t.Proper c' opened' := by
  cases t with
  | node n context => trivial
  | endMacro => trivial
  | resume k =>
      cases k with
      | store | defaultParameter => exact hown _ h
      | foreachBody => exact ⟨h.1.imp_right (hown _), hown _ h.2⟩
      | foreachStep => exact ⟨h.1.imp_right (hown _), hopened h.2⟩
      | switchCase | switchTest => exact hopened h
      | coalesce | definedAccess =>
          change Name.hash? c'.target.revision _ = _
          rw [htarget]
          exact h
      | _ => trivial

/-- What is known stays so if the occurrences of the code so far are named in another way, and if there
are more variables of the script's own. -/
theorem Ready.change {c' : Setting} {tasks : List Task} (h : Ready c s tasks)
    (hc' : c' = { c with own := c'.own, prior := c'.prior, source := c'.source })
    (hown : ∀ x, c.own x → c'.own x) (hbehind : c'.prior.length ≤ s.function.chain.size)
    (howner : ∀ p < s.function.chain.size, c'.owner p = c.owner p) : Ready c' s tasks := by
  obtain ⟨code, facts, h, hrefs⟩ := h
  have hsize : s.function.chain.size = code.length := congrArg Chain.size h.chain
  rw [hsize] at hbehind howner
  have htarget : c'.target = c.target := by rw [hc']
  have hat {p : Nat} {i : Instruction} (hi : code[p]? = some i) : c'.owner p = c.owner p :=
    howner p (List.getElem?_eq_some_iff.mp hi).1
  rw [Ready, Setting.legacy, htarget]
  refine ⟨code, facts, ⟨h.chain, h.nonempty, hbehind, ?_, ?_, ?_, ?_, ?_,
    h.annotates.congr_owner howner, ?_, h.known, h.marks, h.scopes⟩, ?_⟩
  · rw [htarget]; exact h.scriptTarget
  · rw [htarget]; exact h.functionTarget
  · rw [hc']; exact h.switchKeys
  · rw [hc']; exact h.foreachKeys
  · rw [hc']; exact h.declared
  · intro p i hi x hx
    rw [Setting.legacy, htarget, hat hi]
    exact (h.attributed p i hi x hx).imp_left (hown x)
  · intro p x o hp ho
    exact hrefs p x o hp (hat hp ▸ ho)

/-- What is fixed before the first task of a function is taken on. -/
structure Outset where
  /-- What code is made for. -/
  target : Target
  /-- The parameters of the function. -/
  parameters : List Node
  /-- The variables that are reserved for switches and loops over arrays. -/
  reserved : List UInt32

namespace Outset

variable (b : Outset)

/-- What the machine relies on after the tasks of a log. -/
def setting (f : ScriptFunction) (log : List Done) : Setting where
  target := b.target
  own x := ∃ name ∈ ownNames b.parameters log, Name.hash? b.target.revision name = some x
  prior := none :: sources log
  source := none
  declared := b.reserved
  switchKeys := f.switchKeys
  foreachKeys := f.foreachKeys

/-- What it relies on during the next task: the names that the task looks up are the script's own, and
the code belongs to the task's occurrence. -/
def settingFor (f : ScriptFunction) (log : List Done) (t : Task) : Setting :=
  { b.setting f log with
    own := fun x => ∃ name ∈ ownNames b.parameters log ++ t.names,
      Name.hash? b.target.revision name = some x
    source := t.occurrence? log.length }

theorem own_settingFor {f : ScriptFunction} {log : List Done} (t : Task) {x : UInt32}
    (h : (b.setting f log).own x) : (b.settingFor f log t).own x := by
  obtain ⟨name, hname, hx⟩ := h
  exact ⟨name, List.mem_append_left _ hname, hx⟩

end Outset

/-- Whether the variables of an occurrence belong to it according to a log: it was begun, or they are
shared. -/
def Occurrence.Known (revision : Revision) (log : List Done) (o : Occurrence) : Prop :=
  match o with
  | .switch _ | .foreach _ => o ∈ openings log
  | .coalesce _ temp | .definedAccess _ temp =>
      temp ∈ (sharedNames log).filterMap (Name.hash? revision)

/-- What holds of the machine after the tasks of a log.  The variables that were reserved at first are
those of the constructs that are begun, of those that are planned, and those that still are reserved. -/
structure Traced (b : Outset) (log : List Done) (m : Machine) : Prop where
  /-- It is ready for the tasks that are left. -/
  ready : Ready (b.setting m.state.function log) m.state m.tasks
  /-- The log tells of each instruction but the first. -/
  size : m.state.function.chain.size = (none :: sources log).length
  /-- The tasks carry variables of the right sort. -/
  proper : ∀ t ∈ m.tasks, t.Proper (b.setting m.state.function log) (openings log)
  /-- No variable is lost or used twice. -/
  perm : ((openings log).flatMap (Occurrence.variables b.target.isLegacy) ++
    (heldBy b.target.isLegacy m.tasks ++ (b.setting m.state.function log).reserved)).Perm b.reserved
  /-- The code belongs to constructs that the log knows. -/
  known : ∀ o, some o ∈ sources log → o.Known b.target.revision log

section Runs

variable {b : Outset} {table : MacroTable} {log : List Done} {m m' : Machine} {t : Task}

theorem Occurrence.Known.concat {o : Occurrence} {revision : Revision}
    (h : o.Known revision log) (entry : Done) : o.Known revision (log ++ [entry]) := by
  have hopenings : openings log ⊆ openings (log ++ [entry]) := by
    rw [openings_concat]
    exact List.subset_append_left _ _
  have hshared : sharedNames log ⊆ sharedNames (log ++ [entry]) := by
    intro name hname
    simp only [sharedNames, List.any_append, List.mem_append, Bool.or_eq_true] at hname ⊢
    grind
  cases o with
  | switch | foreach => exact hopenings h
  | coalesce | definedAccess => exact List.filterMap_subset _ hshared h

theorem mem_openings_concat {o : Occurrence} {emitted : Nat} (h : o ∈ t.opens?) :
    o ∈ openings (log ++ [⟨t, emitted⟩]) := by
  rw [openings_concat]
  exact List.mem_append_right _ (Option.mem_toList.mpr h)

/-- The occurrence that a task's code belongs to is known once the task is done. -/
theorem Occurrence.known_of_task {o : Occurrence} {emitted : Nat}
    (ho : t.occurrence? log.length = some o)
    (hproper : t.Proper c (openings (log ++ [⟨t, emitted⟩]))) :
    o.Known c.target.revision (log ++ [⟨t, emitted⟩]) := by
  cases t with
  | node | endMacro => cases ho
  | resume k =>
      cases k with
      | switchStore | foreachBody =>
          cases ho
          exact mem_openings_concat rfl
      | switchTest =>
          cases ho
          exact hproper
      | foreachStep =>
          cases ho
          exact hproper.2
      | coalesce | definedAccess =>
          cases ho
          exact List.mem_filterMap.mpr ⟨_, by simp [sharedNames], hproper⟩
      | _ => cases ho

theorem ownNames_concat (parameters : List Node) (entry : Done) :
    ownNames parameters (log ++ [entry]) = ownNames parameters log ++ entry.task.names := by
  simp [ownNames]

theorem heldBy_cons (legacy : Bool) (t : Task) (rest : List Task) :
    heldBy legacy (t :: rest) =
      t.opens?.toList.flatMap (Occurrence.variables legacy) ++ heldBy legacy rest := by
  cases h : t.opens? <;> simp [heldBy, h]

theorem Traced.ready_for (h : Traced b log m) (t : Task) :
    Ready (b.settingFor m.state.function log t) m.state m.tasks := by
  refine h.ready.change rfl (fun _ => b.own_settingFor t) h.size.ge fun p hp => ?_
  rw [h.size] at hp
  exact (List.getD_eq_getElem _ _ hp).trans (List.getD_eq_getElem _ _ hp).symm

theorem Traced.proper_for (h : Traced b log m) (t : Task) (emitted : Nat) {u : Task}
    (hu : u ∈ m.tasks) :
    u.Proper (b.settingFor m.state.function log t) (openings (log ++ [⟨t, emitted⟩])) := by
  refine (h.proper u hu).mono rfl (fun _ => b.own_settingFor t) ?_
  rw [openings_concat]
  exact List.subset_append_left _ _

/-- The code of a task is put down to its occurrence. -/
theorem getD_sources_concat {emitted p : Nat} (hp : p < (none :: sources log).length + emitted) :
    (none :: sources (log ++ [⟨t, emitted⟩])).getD p none =
      (none :: sources log).getD p (t.occurrence? log.length) := by
  rw [sources_concat, ← List.cons_append]
  rcases Nat.lt_or_ge p (none :: sources log).length with hlt | hge
  · rw [List.getD_append _ _ _ _ hlt, List.getD_eq_getElem _ _ hlt, List.getD_eq_getElem _ _ hlt]
  · rw [List.getD_append_right _ _ _ _ hge, List.getD_eq_default _ _ hge,
      List.getD_replicate _ (by dsimp only; omega)]

/-- Each step of the machine adds a task to the log. -/
theorem Traced.step (h : Traced b log m) (htasks : m.tasks = t :: rest)
    (hstep : m.step table = .ok m') :
    Traced b (log ++ [⟨t, m'.state.function.chain.size - m.state.function.chain.size⟩]) m' := by
  unfold Machine.step at hstep
  rw [htasks] at hstep
  obtain ⟨⟨⟨next, expanding⟩, s'⟩, hstart, hresult⟩ := Control.except_bind_eq_ok.mp hstep
  cases hresult
  dsimp only
  -- during the task its code is put down to its occurrence, and in the log it is so afterwards
  generalize hemitted : s'.function.chain.size - m.state.function.chain.size = emitted
  have hready := h.ready_for t
  have hproper {u : Task} (hu : u ∈ t :: rest) := h.proper_for t emitted (htasks ▸ hu)
  rw [htasks] at hready
  obtain ⟨c', hc', hready', hproper', hperm'⟩ := Outcome.of_start (hproper List.mem_cons_self)
    log.length rfl (fun o => mem_openings_concat)
    (fun name hname x hx => ⟨name, List.mem_append_right _ hname, hx⟩) hready hstart
  obtain ⟨hswitches, hforeaches⟩ := Holds.keys_eq hready'
  have hsetting : b.setting s'.function (log ++ [⟨t, emitted⟩]) =
      { c' with prior := none :: sources (log ++ [⟨t, emitted⟩]), source := none } := by
    rw [hc', ← hswitches, ← hforeaches, Outset.setting, ownNames_concat]
    rfl
  have hgrows : (none :: sources log).length ≤ s'.function.chain.size := by
    obtain ⟨code, _, hcode, -⟩ := hready'
    have hbehind := hcode.behind
    rw [hc'] at hbehind
    rw [hcode.chain]
    exact hbehind
  have hlength : (none :: sources (log ++ [⟨t, emitted⟩])).length =
      (none :: sources log).length + emitted := by
    rw [sources_concat, ← List.cons_append, List.length_append, List.length_replicate]
  have hsize : s'.function.chain.size = (none :: sources (log ++ [⟨t, emitted⟩])).length := by
    have := h.size
    rw [hlength]
    omega
  constructor
  case ready =>
      refine hready'.change (by rw [hsetting]) (by rw [hsetting]; exact fun _ hx => hx) ?_
        fun p hp => ?_
      · rw [hsetting]
        exact hsize.ge
      · rw [hsetting, hc']
        exact getD_sources_concat (by rwa [← hlength, ← hsize])
  case size => exact hsize
  case proper =>
      intro u hu
      rw [hsetting]
      rcases List.mem_append.mp hu with hu | hu
      · exact (hproper' u hu).mono (by rw [hc']) (by rw [hc']; exact fun _ hx => hx) (List.Subset.refl _)
      · exact (hproper (List.mem_cons_of_mem _ hu)).mono (by rw [hc'])
          (by rw [hc']; exact fun _ hx => hx) (List.Subset.refl _)
  case perm =>
      -- what the task begins was planned before, and what it plans was reserved before
      have hperm := h.perm
      rw [htasks, heldBy_cons] at hperm
      rw [openings_concat, List.flatMap_append, heldBy_append, hsetting]
      refine List.Perm.trans ?_ hperm
      rw [List.append_assoc, List.append_assoc, List.append_assoc]
      refine .append_left _ (.append_left _ ?_)
      exact (List.perm_append_comm_assoc _ _ _).trans (hperm'.append_left _)
  case known =>
      intro o ho
      rw [sources_concat] at ho
      rcases List.mem_append.mp ho with ho | ho
      · exact (h.known o ho).concat _
      · exact Occurrence.known_of_task (List.eq_of_mem_replicate ho).symm
          (hproper List.mem_cons_self)

theorem Machine.run_of_rest (h : m.tasks = []) (steps : Nat) : m.run table steps = .ok m := by
  have hstep : m.step table = .ok m := by
    unfold Machine.step
    rw [h]
  induction steps with
  | zero => rfl
  | succ steps ih => exact Control.except_bind_eq_ok.mpr ⟨m, hstep, ih⟩

theorem Traced.run {steps : Nat} : ∀ {log : List Done} {m : Machine}, Traced b log m →
    m.run table steps = .ok m' → Traced b (log ++ m.log table steps) m' := by
  induction steps with
  | zero =>
      intro log m h hrun
      cases hrun
      rw [Machine.log, List.append_nil]
      exact h
  | succ steps ih =>
      intro log m h hrun
      cases htasks : m.tasks with
      | nil =>
          rw [Machine.run_of_rest htasks] at hrun
          cases hrun
          simpa [Machine.log, htasks] using h
      | cons t rest =>
          obtain ⟨m₁, hstep, hrest⟩ := Control.except_bind_eq_ok.mp hrun
          have hlog : m.log table (steps + 1) =
              ⟨t, m₁.state.function.chain.size - m.state.function.chain.size⟩ ::
                m₁.log table steps := by
            simp [Machine.log, htasks, hstep]
          rw [hlog, List.append_cons]
          exact ih (h.step htasks hstep) hrest

end Runs

/-! ## The start of a run -/

section Start

variable {n body : Node} {script : Script} {defaults : List (UInt32 × Node)}

/-- At first, the code only declares the locals. -/
theorem ready_startOf (hstart : startOf n script = .ok (body, s)) (own : UInt32 → Prop) :
    Ready ⟨script.target, own, [none], none, [], [], []⟩ s [] := by
  obtain ⟨htarget, hcode⟩ := Control.startOf_withCode hstart
  obtain ⟨name, hash, names, -, -, -, rfl⟩ := Control.startOf_eq_ok hstart
  have hlocals {p : Nat} {i : Instruction} (hi : [Instruction.locals][p]? = some i) : i = .locals := by
    simpa using List.mem_of_getElem? hi
  refine ⟨[.locals], fun _ => ∅, ⟨?_, by simp, by simp, rfl, rfl, rfl, rfl, by simp, ?_, ?_, ?_, ?_,
    .nil⟩, ?_⟩
  · exact (congrArg (·.function.chain) hcode).symm
  · exact ⟨rfl, fun _ _ _ => Set.empty_subset _, fun p op k hjump => absurd (hlocals hjump) nofun⟩
  · intro p i hi x hx
    rw [hlocals hi] at hx
    cases hx
  · exact nofun
  · exact nofun
  · exact fun p x o hp => absurd (hlocals hp) nofun

theorem ready_bodyTasks (h : Ready c s []) : Ready c s (bodyTasks defaults body) := by
  induction defaults with
  | nil => exact h
  | cons p rest ih => exact ih

/-- Declarations have no code. -/
theorem size_of_declareAll (hstart : startOf n script = .ok (body, s))
    (hrun : declareAll (parametersOf n) body s = .ok (defaults, s')) :
    s'.function.chain.size = 1 := by
  obtain ⟨htarget, hcode⟩ := Control.startOf_withCode hstart
  have hsilent : Control.Silent script.target [] (declareAll (parametersOf n) body)
      Control.nothingLearned :=
    .bind (Control.silent_declareParameters _ _) fun defaults =>
      .bind (Control.silent_collectLocals body) fun _ => .pure defaults (List.nil_subset _)
  rw [← hcode] at hrun
  obtain ⟨s₁, -, -, rfl⟩ := hsilent.oblivious _ _ _ _ _ htarget hrun
  rfl

/-- What is fixed before the first task of the function of a node. -/
def outset (n body : Node) (script : Script) : Outset where
  target := script.target
  parameters := parametersOf n
  reserved := (reservedNames script.target.revision body).filterMap
    (Name.hash? script.target.revision)

/-- What holds before the first task. -/
theorem traced_of_start (hstart : startOf n script = .ok (body, s))
    (hrun : declareAll (parametersOf n) body s = .ok (defaults, s')) :
    Traced (outset n body script) [] ⟨s', [], bodyTasks defaults body⟩ := by
  have hsize := size_of_declareAll hstart hrun
  obtain ⟨names, s₁, hparameters, hrun⟩ := exists_of_attempt_bind hrun
  obtain ⟨_, s₂, hcollect, hreturn⟩ := exists_of_attempt_bind hrun
  cases hreturn
  have hinitial := ready_startOf hstart ((outset n body script).setting s'.function []).own
  obtain ⟨hdeclared, hdefaults⟩ := hinitial.declareParameters hparameters
  obtain ⟨hready, hperm⟩ := Ready.collectLocals (c := (outset n body script).setting s'.function [])
    rfl hdeclared hcollect
  constructor
  case ready => exact ready_bodyTasks hready
  case size => exact hsize
  case proper =>
      intro t ht
      rcases List.mem_append.mp ht with ht | ht
      · obtain ⟨p, hp, rfl⟩ := List.mem_map.mp ht
        obtain ⟨name, hname, hx⟩ := hdefaults p hp
        exact ⟨name, List.mem_append_left _ hname, hx⟩
      · simp at ht
        rcases ht with rfl | rfl <;> trivial
  case perm =>
      have hheld : heldBy (outset n body script).target.isLegacy (bodyTasks defaults body) = [] := by
        simp [heldBy, bodyTasks, Task.opens?]
      rw [hheld]
      exact hperm
  case known => exact fun o ho => absurd ho List.not_mem_nil

end Start

end GscAssembler.Lowering
