import GscAssembler.Proofs.Lowering.QuietTasks

/-!
# What each task relies on

The pending tasks say what has to hold between two steps of the machine (`Ready`): a task that will read
synthetic variables needs them to have been stored, a jump that waits must know what the tasks below it
need, and where a loop jumps back to nothing else may be relied on.  Each task has a rule: if the
machine is ready for the tasks, then after the task it is ready for what is planned and for the rest.
-/

namespace GscAssembler.Lowering

open Code (Context Fact ForeachLocals Key Opcode)
open SyntaxTree (Node)

/-! ## What tasks need -/

/-- The variables that must have been stored when a construct goes on. -/
def Continuation.needs (legacy : Bool) : Continuation → List UInt32
  | .switchCase key .. | .switchTest key .. => [key]
  | .foreachStep locals key .. =>
      if legacy then [locals.array, key] else [locals.array, key, locals.nextKey]
  | _ => []

/-- The variables that must have been stored at every jump out of the loop or switch that a continuation
closes, if it closes one, besides those that the tasks below it need. -/
def Continuation.inside? (legacy : Bool) : Continuation → Option (List UInt32)
  | .whileBody .. | .forHeader .. | .forBody .. | .forStep .. | .closeLoop .. | .switchStore ..
  | .switchCase .. | .switchTest .. | .switchEnd => some []
  | .foreachStep locals key header exit =>
      some ((Continuation.foreachStep locals key header exit).needs legacy)
  | _ => none

/-- What a continuation expects of the jumps it will land, and of the places it will jump back to, with
the variables that are needed below it. -/
def Continuation.marks (legacy : Bool) (below : List UInt32) : Continuation → List Mark
  | .land jump | .otherwise jump _ => [.waits jump below]
  | .whileBody header _ | .forBody header .. => [.lands header below]
  | .forStep header exit _ => .lands header below :: exit.toList.map (.waits · below)
  | .foreachStep locals key header exit =>
      [.lands header ((Continuation.foreachStep locals key header exit).needs legacy ++ below),
        .waits exit below]
  | .closeLoop header exit continueAt =>
      .lands header below :: .lands continueAt below :: exit.toList.map (.waits · below)
  | .switchCase key _ _ falling | .switchTest key _ _ falling =>
      falling.map (.waits · (key :: below))
  | _ => []

/-- The variables that tasks need. -/
def needsOf (legacy : Bool) : List Task → List UInt32
  | [] => []
  | .resume k :: rest => k.needs legacy ++ needsOf legacy rest
  | _ :: rest => needsOf legacy rest

/-- The variables that jumps out of the open loops and switches must know to have been stored. -/
def scopesOf (legacy : Bool) : List Task → List (List UInt32)
  | [] => []
  | .resume k :: rest =>
      match k.inside? legacy with
      | some inside => (inside ++ needsOf legacy rest) :: scopesOf legacy rest
      | none => scopesOf legacy rest
  | _ :: rest => scopesOf legacy rest

/-- What tasks expect of places in the code. -/
def marksOf (legacy : Bool) : List Task → List Mark
  | [] => []
  | .resume k :: rest => k.marks legacy (needsOf legacy rest) ++ marksOf legacy rest
  | _ :: rest => marksOf legacy rest

section Lists

variable {legacy : Bool} {n : Node} {context : Context} {rest : List Task}

@[simp] theorem marksOf_node : marksOf legacy (.node n context :: rest) = marksOf legacy rest := rfl

/-- What jumps out of a loop must know is needed by some task. -/
theorem subset_of_mem_scopesOf {inside : List UInt32} (h : inside ∈ scopesOf legacy rest) :
    inside ⊆ needsOf legacy rest := by
  induction rest with
  | nil => cases h
  | cons t rest ih =>
      cases t with
      | node n context => exact ih h
      | endMacro => exact ih h
      | resume k =>
          have hinside : ∀ own ∈ k.inside? legacy, own ⊆ k.needs legacy := by
            cases k <;> simp [Continuation.inside?]
          rw [scopesOf] at h
          rw [needsOf]
          cases hk : k.inside? legacy with
          | none =>
              rw [hk] at h
              exact List.subset_append_of_subset_right _ (ih h)
          | some own =>
              rw [hk] at h
              rcases List.mem_cons.mp h with rfl | h
              · exact List.append_subset.mpr ⟨List.subset_append_of_subset_left _ (hinside own hk),
                  List.subset_append_right _ _⟩
              · exact List.subset_append_of_subset_right _ (ih h)

/-- Light tasks need nothing. -/
theorem of_light {revision : Revision} {next : List Task} (h : ∀ t ∈ next, t.Light revision)
    (rest : List Task) :
    needsOf legacy (next ++ rest) = needsOf legacy rest ∧
      scopesOf legacy (next ++ rest) = scopesOf legacy rest ∧
      marksOf legacy (next ++ rest) = marksOf legacy rest := by
  induction next with
  | nil => exact ⟨rfl, rfl, rfl⟩
  | cons t next ih =>
      have hrest := ih fun t ht => h t (List.mem_cons_of_mem _ ht)
      cases t with
      | node n context => exact hrest
      | endMacro => exact hrest
      | resume k =>
          have hk : k.Light revision := h _ List.mem_cons_self
          cases k with
          | op | number | field | object | call | callPointer | notification | branch
          | shortCircuit | coalesce | definedAccess => exact hrest
          | _ => exact hk.elim

end Lists

/-! ## Being ready -/

/-- Whether a state is ready for the pending tasks. -/
def Ready (c : Setting) (s : State) (tasks : List Task) : Prop :=
  Holds c s (scopesOf c.legacy tasks) ((needsOf c.legacy tasks).map .stored)
    (marksOf c.legacy tasks)

/-- The variables that are still reserved. -/
def Setting.reserved (c : Setting) : List UInt32 :=
  c.switchKeys ++ c.foreachKeys.flatMap (ForeachLocals.variables c.legacy)

/-- The variables of the switches and loops over arrays that are planned and not begun. -/
def heldBy (legacy : Bool) (tasks : List Task) : List UInt32 :=
  (tasks.filterMap Task.opens?).flatMap (Occurrence.variables legacy)

/-- Whether the variables that a continuation carries are of the right sort. -/
@[simp] def Continuation.Proper (c : Setting) (opened : List Occurrence) : Continuation → Prop
  | .store x | .defaultParameter x _ => c.own x
  | .foreachBody locals key value _ => (key = locals.key ∨ c.own key) ∧ c.own value
  | .foreachStep locals key .. => (key = locals.key ∨ c.own key) ∧ .foreach locals ∈ opened
  | .switchCase key .. | .switchTest key .. => .switch key ∈ opened
  | .coalesce temp _ => Name.hash? c.target.revision coalesceTemp = some temp
  | .definedAccess temp .. => Name.hash? c.target.revision definedTemp = some temp
  | _ => True

/-- Whether the variables that a task carries are of the right sort. -/
@[simp] def Task.Proper (c : Setting) (opened : List Occurrence) : Task → Prop
  | .resume k => k.Proper c opened
  | _ => True

theorem Task.Light.proper {c : Setting} {opened : List Occurrence} {t : Task}
    (h : t.Light c.target.revision) : t.Proper c opened := by
  cases t with
  | node n context => trivial
  | endMacro => trivial
  | resume k =>
      cases k with
      | op | number | field | object | call | callPointer | notification | branch
      | shortCircuit => trivial
      | coalesce | definedAccess => exact h
      | _ => exact h.elim

theorem heldBy_of_light {legacy : Bool} {revision : Revision} {tasks : List Task}
    (h : ∀ t ∈ tasks, t.Light revision) : heldBy legacy tasks = [] := by
  have hnone : tasks.filterMap Task.opens? = [] := by
    rw [List.filterMap_eq_nil_iff]
    intro t ht
    have hlight := h t ht
    cases t with
    | node n context => rfl
    | endMacro => rfl
    | resume k =>
        cases k with
        | switchStore | foreachBody => exact hlight.elim
        | _ => rfl
  rw [heldBy, hnone, List.flatMap_nil]

theorem heldBy_append (legacy : Bool) (first second : List Task) :
    heldBy legacy (first ++ second) = heldBy legacy first ++ heldBy legacy second := by
  simp [heldBy]

/-- What a task leaves behind: readiness for what it plans and for the rest.  The variables of the switches
and loops that it plans are taken from those that were reserved. -/
def Outcome (c : Setting) (opened : List Occurrence) (s' : State) (next rest : List Task) : Prop :=
  ∃ c' : Setting, c' = { c with switchKeys := c'.switchKeys, foreachKeys := c'.foreachKeys } ∧
    Ready c' s' (next ++ rest) ∧ (∀ t ∈ next, t.Proper c opened) ∧
    (heldBy c.legacy next ++ c'.reserved).Perm c.reserved

variable {c : Setting} {opened : List Occurrence} {s s' : State} {next rest : List Task}

theorem Outcome.of_ready (h : Ready c s' (next ++ rest)) (hproper : ∀ t ∈ next, t.Proper c opened)
    (hheld : heldBy c.legacy next = []) : Outcome c opened s' next rest :=
  ⟨c, rfl, h, hproper, by rw [hheld]; exact .refl _⟩

/-- Light tasks may come first. -/
theorem Outcome.of_light {light : List Task} (hlight : ∀ t ∈ light, t.Light c.target.revision)
    (h : Ready c s' (next ++ rest)) (hproper : ∀ t ∈ next, t.Proper c opened)
    (hheld : heldBy c.legacy next = []) : Outcome c opened s' (light ++ next) rest := by
  obtain ⟨hneeds, hscopes, hmarks⟩ := Lowering.of_light hlight (next ++ rest)
  refine .of_ready ?_ (fun t ht => ?_) ?_
  · rw [List.append_assoc, Ready, hneeds, hscopes, hmarks]
    exact h
  · exact (List.mem_append.mp ht).elim (fun ht => (hlight t ht).proper) (hproper t)
  · rw [heldBy_append, heldBy_of_light hlight, hheld]
    rfl

/-- Whether a task that is begun in a certain way leaves the machine ready for what it plans. -/
def Keeps (c : Setting) (opened : List Occurrence) (t : Task) (x : Attempt (List Task)) : Prop :=
  ∀ ⦃s s' : State⦄ ⦃next rest : List Task⦄, Ready c s (t :: rest) → x s = .ok (next, s') →
    Outcome c opened s' next rest

/-- Whether going on with a construct leaves the machine ready. -/
def Continuation.Keeps (c : Setting) (opened : List Occurrence) (k : Continuation) : Prop :=
  Lowering.Keeps c opened (.resume k) (planRest k)

/-- What begins with a quiet task ends in a state that is ready for light ones. -/
theorem Quiet.keeps_task {t : Task} {x : Attempt (List Task)} (hx : Quiet c.target.revision x)
    (hneeds : ∀ rest, needsOf c.legacy (t :: rest) = needsOf c.legacy rest)
    (hscopes : ∀ rest, scopesOf c.legacy (t :: rest) = scopesOf c.legacy rest)
    (hmarks : ∀ rest, marksOf c.legacy (t :: rest) = marksOf c.legacy rest) :
    Keeps c opened t x := by
  intro s s' next rest h hrun
  rw [Ready, hneeds, hscopes, hmarks] at h
  obtain ⟨hholds, hlight⟩ := hx.keeps rfl h hrun
  rw [← List.append_nil next]
  exact .of_light hlight hholds (by simp) rfl

/-! ## Branches -/

section Rules

variable {α β : Type} {number : Nat}

theorem exists_of_liftM_bind {x : Lower α} {f : α → Attempt β} {v : β}
    (h : ((liftM x : Attempt α) >>= f) s = .ok (v, s')) :
    ∃ a t, x s = .ok (a, t) ∧ f a t = .ok (v, s') := by
  obtain ⟨a, t, hx, hf⟩ := exists_of_attempt_bind h
  exact ⟨a, t, perform_eq_ok.mp hx, hf⟩

theorem stored_of_mem (needs : List UInt32) :
    ∀ x ∈ needs, (.stored x : Fact Occurrence) ∈ needs.map .stored :=
  fun _ hx => List.mem_map_of_mem hx

theorem rule_land {jump : Key} : (Continuation.land jump).Keeps c opened := by
  intro s s' next rest h hrun
  obtain ⟨_, _, hland, hnext⟩ := exists_of_liftM_bind hrun
  cases hnext
  have hholds := Holds.land h List.mem_cons_self (stored_of_mem _) hland
  exact .of_ready (hholds.mono (List.Subset.refl _) (List.subset_cons_self _ _)) (by simp) rfl

theorem rule_branch {body : Node} {otherwise : Option Node} :
    (Continuation.branch body otherwise).Keeps c opened := by
  intro s s' next rest h hrun
  obtain ⟨skip, _, hjump, hnext⟩ := exists_of_liftM_bind hrun
  obtain ⟨hholds, -⟩ := Holds.emitJump h (needsOf c.legacy rest) (stored_of_mem _) hjump
  cases otherwise <;> cases hnext
  · exact .of_ready hholds (by simp) rfl
  · exact .of_ready hholds (by simp) rfl

theorem rule_otherwise {skip : Key} {n : Node} : (Continuation.otherwise skip n).Keeps c opened := by
  intro s s' next rest h hrun
  obtain ⟨done, _, hjump, hrun⟩ := exists_of_liftM_bind hrun
  obtain ⟨_, _, htarget, hnext⟩ := exists_of_liftM_bind hrun
  cases hnext
  obtain ⟨hholds, hlast⟩ := Holds.emitJump h (needsOf c.legacy rest) (stored_of_mem _) hjump
  have hlanded := hholds.setTarget_end (List.mem_cons_of_mem _ List.mem_cons_self) (stored_of_mem _)
    hlast htarget
  refine .of_ready (hlanded.mono (List.Subset.refl _) ?_) (by simp) rfl
  exact List.cons_subset_cons _ (List.subset_cons_self _ _)

theorem rule_shortCircuit {code : Opcode} {right : Node} :
    (Continuation.shortCircuit code right).Keeps c opened := by
  intro s s' next rest h hrun
  obtain ⟨decided, _, hjump, hrun⟩ := exists_of_liftM_bind hrun
  obtain ⟨legacy, _, hlegacy, hnext⟩ := exists_of_liftM_bind hrun
  obtain ⟨hholds, -⟩ := Holds.emitJump h (needsOf c.legacy rest) (stored_of_mem _) hjump
  cases hlegacy
  cases hnext
  split
  · exact .of_ready hholds (by simp) rfl
  · exact .of_ready hholds (by simp) rfl

/-! ## Shared variables -/

/-- Whether an occurrence uses a variable that all its like share. -/
def Occurrence.Shares (o : Occurrence) (temp : UInt32) : Prop :=
  ∃ number, o = .coalesce number temp ∨ o = .definedAccess number temp

theorem Occurrence.Shares.names {o : Occurrence} {temp : UInt32} (h : o.Shares temp)
    (hsource : c.source = some o) : c.Names temp := by
  refine .inr ⟨o, hsource, ?_⟩
  obtain ⟨number, rfl | rfl⟩ := h <;> simp [Occurrence.variables]

theorem Occurrence.Shares.reads {o : Occurrence} {temp : UInt32} (h : o.Shares temp)
    (hsource : c.source = some o) (known : List (Fact Occurrence)) :
    c.Reads (c.stored temp known) temp := by
  have hstored : Fact.storedBy temp o ∈ c.stored temp known := by simp [Setting.stored, hsource]
  refine .inr ⟨o, hsource, ?_⟩
  obtain ⟨number, rfl | rfl⟩ := h
  · exact ⟨by simp [Occurrence.variables], hstored⟩
  · exact ⟨by simp [Occurrence.variables], hstored⟩

section Temporaries

variable {o : Occurrence} {temp : UInt32} {scopes : List (List UInt32)} {needs : List UInt32}
  {marks : List Mark} {done : Key}

theorem stored_subset (x : UInt32) (known : List (Fact Occurrence)) : known ⊆ c.stored x known :=
  fun _ hfact => List.mem_cons_of_mem _ (List.mem_append_right _ hfact)

/-- What comes first in both constructs: the value is stored, tested, and read again if it is defined. -/
def testTemp (temp : UInt32) : Lower Key := do
  emitStore temp
  emitEval temp .plain
  emitOp .isDefined
  let undefined ← emitJump .jumpOnFalse
  emitEval temp .plain
  return undefined

theorem Holds.testTemp {undefined : Key} (ho : o.Shares temp) (hsource : c.source = some o)
    (h : Holds c s scopes (needs.map .stored) marks)
    (hrun : Lowering.testTemp temp s = .ok (undefined, s')) :
    Holds c s' scopes (needs.map .stored) (.waits undefined needs :: marks) := by
  obtain ⟨_, s₁, hstore, hrun⟩ := Control.exists_of_bind_eq_ok hrun
  obtain ⟨_, s₂, heval, hrun⟩ := Control.exists_of_bind_eq_ok hrun
  obtain ⟨_, s₃, hop, hrun⟩ := Control.exists_of_bind_eq_ok hrun
  obtain ⟨jump, s₄, hjump, hrun⟩ := Control.exists_of_bind_eq_ok hrun
  obtain ⟨_, s₅, hagain, hreturn⟩ := Control.exists_of_bind_eq_ok hrun
  cases hreturn
  have hreads := ho.reads hsource (needs.map .stored)
  have h₁ := h.emitStore (ho.names hsource) (by simp) hstore
  have h₃ := (h₁.emitEval hreads heval).emitOp hop
  obtain ⟨h₄, -⟩ := h₃.emitJump needs (fun x hx => stored_subset _ _ (stored_of_mem _ x hx)) hjump
  exact (h₄.emitEval hreads hagain).mono (stored_subset _ _) (List.Subset.refl _)

theorem keepDefined_eq (temp : UInt32) : keepDefined temp = (do
    let undefined ← testTemp temp
    let done ← emitJump .jump
    setTarget undefined done
    return done) := by
  simp [keepDefined, testTemp]

theorem definedAccess_eq (temp : UInt32) (code : Opcode) (field : UInt32) :
    definedAccess temp (pure ()) code field = (do
      let undefined ← testTemp temp
      emitOp .castFieldObject
      discard (emit (.field code field))
      let done ← emitJump .jump
      setTarget undefined done
      emitOp .getUndefined
      land done) := by
  simp [definedAccess, testTemp]

end Temporaries

theorem rule_coalesce {temp : UInt32} {right : Node}
    (hsource : c.source = some (.coalesce number temp)) :
    (Continuation.coalesce temp right).Keeps c opened := by
  intro s s' next rest h hrun
  obtain ⟨done, _, hkeep, hnext⟩ := exists_of_liftM_bind hrun
  cases hnext
  rw [keepDefined_eq] at hkeep
  obtain ⟨undefined, s₁, htest, hkeep⟩ := Control.exists_of_bind_eq_ok hkeep
  obtain ⟨jump, s₂, hjump, hkeep⟩ := Control.exists_of_bind_eq_ok hkeep
  obtain ⟨_, s₃, htarget, hreturn⟩ := Control.exists_of_bind_eq_ok hkeep
  cases hreturn
  have h₁ := Holds.testTemp ⟨number, .inl rfl⟩ hsource h htest
  obtain ⟨h₂, hlast⟩ := h₁.emitJump (needsOf c.legacy rest) (stored_of_mem _) hjump
  have h₃ := h₂.setTarget_end (List.mem_cons_of_mem _ List.mem_cons_self) (stored_of_mem _) hlast htarget
  refine .of_ready (h₃.mono (List.Subset.refl _) ?_) (by simp) rfl
  exact List.cons_subset_cons _ (List.subset_cons_self _ _)

theorem rule_definedAccess {temp field : UInt32} {context : Context}
    (hsource : c.source = some (.definedAccess number temp)) :
    (Continuation.definedAccess temp field context).Keeps c opened := by
  intro s s' next rest h hrun
  obtain ⟨_, _, haccess, hnext⟩ := exists_of_liftM_bind hrun
  cases hnext
  rw [definedAccess_eq] at haccess
  obtain ⟨undefined, s₁, htest, haccess⟩ := Control.exists_of_bind_eq_ok haccess
  obtain ⟨_, s₂, hcast, haccess⟩ := Control.exists_of_bind_eq_ok haccess
  obtain ⟨_, s₃, hfield, haccess⟩ := Control.exists_of_bind_eq_ok haccess
  obtain ⟨done, s₄, hjump, haccess⟩ := Control.exists_of_bind_eq_ok haccess
  obtain ⟨_, s₅, htarget, haccess⟩ := Control.exists_of_bind_eq_ok haccess
  obtain ⟨_, s₆, hundefined, hland⟩ := Control.exists_of_bind_eq_ok haccess
  have h₁ := Holds.testTemp ⟨number, .inr rfl⟩ hsource h htest
  have h₃ := (h₁.emitOp hcast).emitPlain hfield rfl fun _ _ => nofun
  obtain ⟨h₄, hlast⟩ := h₃.emitJump (needsOf c.legacy rest) (stored_of_mem _) hjump
  have h₅ := h₄.setTarget_end (List.mem_cons_of_mem _ List.mem_cons_self) (stored_of_mem _) hlast htarget
  have h₆ := (h₅.emitOp hundefined).land List.mem_cons_self (stored_of_mem _) hland
  refine .of_ready (h₆.mono (List.Subset.refl _) ?_) (by simp) rfl
  exact fun m hm => List.mem_cons_of_mem _ (List.mem_cons_of_mem _ hm)

/-! ## The script's own variables -/

/-- Storing a variable where only stores are known. -/
theorem Holds.emitStored {x : UInt32} {scopes : List (List UInt32)} {needs : List UInt32}
    {marks : List Mark} (h : Holds c s scopes (needs.map .stored) marks) (hx : c.Names x)
    (hrun : Lowering.emitStore x s = .ok ((), s')) :
    Holds c s' scopes ((x :: needs).map .stored) marks := by
  refine (h.emitStore hx (by simp) hrun).mono ?_ (List.Subset.refl _)
  rw [List.map_cons]
  exact List.cons_subset_cons _ (List.subset_append_right _ _)

theorem rule_store {x : UInt32} (hx : c.own x) : (Continuation.store x).Keeps c opened := by
  intro s s' next rest h hrun
  obtain ⟨_, _, hstore, hnext⟩ := exists_of_liftM_bind hrun
  cases hnext
  have hholds := Holds.emitStored h (.inl hx) hstore
  exact .of_ready (hholds.mono (List.subset_cons_self _ _) (List.Subset.refl _)) (by simp) rfl

theorem rule_defaultParameter {x : UInt32} {value : Node} (hx : c.own x) :
    (Continuation.defaultParameter x value).Keeps c opened := by
  intro s s' next rest h hrun
  obtain ⟨_, _, hdefined, hrun⟩ := exists_of_liftM_bind hrun
  obtain ⟨given, _, hjump, hnext⟩ := exists_of_liftM_bind hrun
  cases hnext
  have hholds := Holds.emitIsDefined h (.inl hx) hdefined
  obtain ⟨hholds, -⟩ := hholds.emitJump (needsOf c.legacy rest) (stored_of_mem _) hjump
  exact .of_ready hholds (by simp [hx]) rfl

theorem exists_of_check_bind {x : Except CompileError α} {f : α → Attempt β} {v : β}
    (h : ((liftM x : Attempt α) >>= f) s = .ok (v, s')) : ∃ a, x = .ok a ∧ f a s = .ok (v, s') := by
  cases x with
  | error e => cases h
  | ok a => exact ⟨a, rfl, h⟩

/-- A local that is looked up has the hash of its name. -/
theorem Holds.hash_of_declaredLocal {scopes : List (List UInt32)} {known : List (Fact Occurrence)}
    {marks : List Mark} {name : String} {x : UInt32} (h : Holds c s scopes known marks)
    (hrun : declaredLocal name s = .ok (x, s')) :
    Name.hash? c.target.revision name = some x ∧ Holds c s' scopes known marks := by
  obtain ⟨names, hnames, -, rfl⟩ := Control.declaredLocal_eq_ok.mp hrun
  refine ⟨?_, h.congr rfl rfl fun _ hx => hx⟩
  obtain ⟨_, _, h, -⟩ := h
  rw [h.scriptTarget] at hnames
  exact Name.hash?_of_hash hnames

theorem rule_name {n : Node} {context : Context} (hsource : c.source = none)
    (hown : ∀ name ∈ n.text?, ∀ x, Name.hash? c.target.revision name = some x → c.own x) :
    Keeps c opened (.node n context) (planName n context) := by
  intro s s' next rest h hrun
  obtain ⟨name, htext, hrun⟩ := exists_of_check_bind hrun
  obtain ⟨revision, _, hrevision, hrun⟩ := exists_of_liftM_bind hrun
  cases hrevision
  cases hobject : Code.builtinObject? s.script.target.revision name (context.has .isRef) with
  | some object =>
      rw [hobject] at hrun
      obtain ⟨_, _, hbuiltin, hnext⟩ := exists_of_liftM_bind hrun
      cases hnext
      exact .of_ready (Mild.keeps h hbuiltin) (by simp) rfl
  | none =>
      rw [hobject] at hrun
      obtain ⟨x, _, hlocal, hrun⟩ := exists_of_liftM_bind hrun
      obtain ⟨_, _, heval, hnext⟩ := exists_of_liftM_bind hrun
      cases hnext
      obtain ⟨hhash, hholds⟩ := Holds.hash_of_declaredLocal h hlocal
      have hx := hown name (text?_of_text htext) x hhash
      exact .of_ready (hholds.emitOwn hsource hx heval) (by simp) rfl

/-! ## Loops -/

theorem outer_subset {legacy : Bool} :
    ∀ outer ∈ (scopesOf legacy rest).head?, outer ⊆ needsOf legacy rest :=
  fun _ houter => subset_of_mem_scopesOf (List.mem_of_mem_head? houter)

theorem rule_while {n : Node} {context : Context} : Keeps c opened (.node n context) (planWhile n) := by
  intro s s' next rest h hrun
  obtain ⟨condition, -, hrun⟩ := exists_of_check_bind hrun
  obtain ⟨body, -, hrun⟩ := exists_of_check_bind hrun
  obtain ⟨_, _, henter, hrun⟩ := exists_of_liftM_bind hrun
  obtain ⟨header, _, hlast, hnext⟩ := exists_of_liftM_bind hrun
  cases hlast
  cases hnext
  have hholds := Holds.enterLoop h (needsOf c.legacy rest) henter
  exact .of_ready (hholds.mark (stored_of_mem _) (List.Subset.refl _)) (by simp) rfl

theorem rule_for {n : Node} {context : Context} : Keeps c opened (.node n context) (planFor n) := by
  intro s s' next rest h hrun
  obtain ⟨start, -, hrun⟩ := exists_of_check_bind hrun
  obtain ⟨condition, -, hrun⟩ := exists_of_check_bind hrun
  obtain ⟨step, -, hrun⟩ := exists_of_check_bind hrun
  obtain ⟨body, -, hrun⟩ := exists_of_check_bind hrun
  obtain ⟨_, _, henter, hnext⟩ := exists_of_liftM_bind hrun
  cases hnext
  exact .of_ready (Holds.enterLoop h (needsOf c.legacy rest) henter) (by simp) rfl

theorem rule_whileBody {header : Key} {body : Node} :
    (Continuation.whileBody header body).Keeps c opened := by
  intro s s' next rest h hrun
  obtain ⟨exit, _, hjump, hnext⟩ := exists_of_liftM_bind hrun
  cases hnext
  obtain ⟨hholds, -⟩ := Holds.emitJump h (needsOf c.legacy rest) (stored_of_mem _) hjump
  refine .of_ready (hholds.mono (List.Subset.refl _) ?_) (by simp) rfl
  intro m hm
  simp only [List.cons_append, List.nil_append, marksOf_node, marksOf, Continuation.marks,
    Option.toList_some, List.map_cons, List.map_nil, List.mem_cons] at hm ⊢
  tauto

theorem rule_forHeader {condition step body : Node} :
    (Continuation.forHeader condition step body).Keeps c opened := by
  intro s s' next rest h hrun
  obtain ⟨header, _, hlast, hnext⟩ := exists_of_liftM_bind hrun
  cases hlast
  have hholds := Holds.mark h (stored_of_mem (needsOf c.legacy rest)) (List.Subset.refl _)
  split at hnext
  · cases hnext
    exact .of_ready hholds (by simp) rfl
  · cases hnext
    exact .of_ready hholds (by simp) rfl

theorem rule_forBody {header : Key} {tested : Bool} {step body : Node} :
    (Continuation.forBody header tested step body).Keeps c opened := by
  intro s s' next rest h hrun
  cases tested with
  | false =>
      cases hrun
      exact .of_ready h (by simp) rfl
  | true =>
      have hrun : ((liftM (emitJump .jumpOnFalse) : Attempt Key) >>= fun exit =>
          pure [.node body .plain, .resume (.forStep header (some exit) step)]) s =
            .ok (next, s') := hrun
      obtain ⟨exit, _, hjump, hnext⟩ := exists_of_liftM_bind hrun
      cases hnext
      obtain ⟨hholds, -⟩ := Holds.emitJump h (needsOf c.legacy rest) (stored_of_mem _) hjump
      refine .of_ready (hholds.mono (List.Subset.refl _) ?_) (by simp) rfl
      exact (List.Perm.swap _ _ _).subset

theorem rule_forStep {header : Key} {exit : Option Key} {step : Node} :
    (Continuation.forStep header exit step).Keeps c opened := by
  intro s s' next rest h hrun
  obtain ⟨continueAt, _, hlast, hnext⟩ := exists_of_liftM_bind hrun
  cases hlast
  cases hnext
  have hholds := Holds.mark h (stored_of_mem (needsOf c.legacy rest)) (List.Subset.refl _)
  refine .of_ready (hholds.mono (List.Subset.refl _) ?_) (by simp) rfl
  exact (List.Perm.swap _ _ _).subset

theorem rule_closeLoop {header continueAt : Key} {exit : Option Key} :
    (Continuation.closeLoop header exit continueAt).Keeps c opened := by
  intro s s' next rest h hrun
  obtain ⟨_, _, hclose, hnext⟩ := exists_of_liftM_bind hrun
  cases hnext
  have hholds := Holds.closeLoop h List.mem_cons_self (stored_of_mem _)
    (fun e he => by simp [Option.mem_def.mp he, marksOf, Continuation.marks])
    (List.mem_cons_of_mem _ List.mem_cons_self)
    (List.Subset.refl _) (stored_of_mem _) outer_subset hclose
  refine .of_ready (hholds.mono (List.Subset.refl _) ?_) (by simp) rfl
  exact List.subset_append_right _ _

theorem rule_loopJump {n : Node} {context : Context} :
    Keeps c opened (.node n context) (do lowerLoopJump n; return []) := by
  intro s s' next rest h hrun
  obtain ⟨_, _, hjump, hnext⟩ := exists_of_liftM_bind hrun
  cases hnext
  unfold lowerLoopJump at hjump
  cases hkind : loopJump n with
  | error e =>
      rw [hkind] at hjump
      cases hjump
  | ok kind =>
      cases hlevels : loopLevels n with
      | error e =>
          rw [hkind, hlevels] at hjump
          cases hjump
      | ok levels =>
          rw [hkind, hlevels] at hjump
          obtain ⟨k, hadd⟩ := discard_eq_ok.mp hjump
          refine .of_ready (Holds.loopJump h (fun inside hinside x hx => ?_) hadd) (by simp) rfl
          exact stored_of_mem _ x (subset_of_mem_scopesOf hinside hx)

/-! ## Switches -/

theorem rule_switchStore {key : UInt32} {branches : List Node}
    (hsource : c.source = some (.switch key)) (hopened : .switch key ∈ opened) :
    (Continuation.switchStore key branches).Keeps c opened := by
  intro s s' next rest h hrun
  obtain ⟨_, _, hstore, hnext⟩ := exists_of_liftM_bind hrun
  cases hnext
  have hnames : c.Names key := .inr ⟨_, hsource, by simp [Occurrence.variables]⟩
  exact .of_ready (Holds.emitStored h hnames hstore)
    (by simp [hopened]) rfl

theorem rule_switchEnd : Continuation.switchEnd.Keeps c opened := by
  intro s s' next rest h hrun
  obtain ⟨_, _, hclose, hnext⟩ := exists_of_liftM_bind hrun
  cases hnext
  exact .of_ready (Holds.closeSwitch h (stored_of_mem _) outer_subset hclose) (by simp) rfl

theorem rule_switchCase {key : UInt32} {branches : List Node} {position : Nat} {falling : List Key}
    (hopened : .switch key ∈ opened) :
    (Continuation.switchCase key branches position falling).Keeps c opened := by
  intro s s' next rest h hrun
  have hfalling : ∀ jump ∈ falling, .waits jump (key :: needsOf c.legacy rest) ∈
      marksOf c.legacy (.resume (.switchCase key branches position falling) :: rest) :=
    fun jump hjump => List.mem_append_left _ (List.mem_map_of_mem hjump)
  have hmarks : marksOf c.legacy rest ⊆
      marksOf c.legacy (.resume (.switchCase key branches position falling) :: rest) :=
    List.subset_append_right _ _
  have hbelow : (needsOf c.legacy rest).map Fact.stored ⊆
      (key :: needsOf c.legacy rest).map (Fact.stored : UInt32 → Fact Occurrence) :=
    List.subset_cons_self _ _
  rw [planRest] at hrun
  cases hbranch : branches[position]? with
  | none =>
      rw [hbranch] at hrun
      obtain ⟨_, s₁, hland, hrun⟩ := exists_of_liftM_bind hrun
      obtain ⟨_, _, hclose, hnext⟩ := exists_of_liftM_bind hrun
      cases hnext
      have hlanded := Holds.landAll hfalling h hland
      have hclosed := Holds.closeSwitch hlanded (fun x hx => hbelow (stored_of_mem _ x hx))
        outer_subset hclose
      exact .of_ready (hclosed.mono (List.Subset.refl _) hmarks) (by simp) rfl
  | some branch =>
      rw [hbranch] at hrun
      dsimp only at hrun
      split at hrun
      · obtain ⟨_, s₁, hland, hnext⟩ := exists_of_liftM_bind hrun
        cases hnext
        have hlanded := (Holds.landAll hfalling h hland).mono hbelow hmarks
        exact .of_light (fun _ => light_values) hlanded (by simp) rfl
      · obtain ⟨value, -, hnext⟩ := exists_of_check_bind hrun
        cases hnext
        exact .of_ready h (by simp [hopened]) rfl

theorem state_of_itemAt {items : List α} {position : Nat} {v : α}
    (h : itemAt items position s = .ok (v, s')) : s' = s := by
  unfold itemAt at h
  cases hitem : items[position]? with
  | none =>
      rw [hitem] at h
      cases h
  | some item =>
      rw [hitem] at h
      cases h
      rfl

theorem state_of_suffixFrom {items suffix : List α} {position : Nat}
    (h : suffixFrom items position s = .ok (suffix, s')) : s' = s := by
  unfold suffixFrom at h
  split at h <;> cases h
  rfl

theorem rule_switchTest {key : UInt32} {branches : List Node} {position : Nat} {falling : List Key}
    (hsource : c.source = some (.switch key)) (hopened : .switch key ∈ opened) :
    (Continuation.switchTest key branches position falling).Keeps c opened := by
  intro s s' next rest h hrun
  have hreads : c.Reads ((key :: needsOf c.legacy rest).map .stored) key :=
    .inr ⟨_, hsource, by simp [Occurrence.variables], by simp [Occurrence.Supplied]⟩
  obtain ⟨branch, s₁, hitem, hrun⟩ := exists_of_attempt_bind hrun
  rw [state_of_itemAt hitem] at hrun
  obtain ⟨_, s₂, heval, hrun⟩ := exists_of_liftM_bind hrun
  obtain ⟨_, s₃, hequal, hrun⟩ := exists_of_liftM_bind hrun
  have hcompared := (Holds.emitEval h hreads heval).emitOp hequal
  split at hrun
  · obtain ⟨skip, s₄, hjump, hrun⟩ := exists_of_liftM_bind hrun
    obtain ⟨_, s₅, hland, hrun⟩ := exists_of_liftM_bind hrun
    obtain ⟨body, s₆, hbody, hnext⟩ := exists_of_attempt_bind hrun
    rw [state_of_suffixFrom hbody] at hnext
    cases hnext
    obtain ⟨hjumped, -⟩ := hcompared.emitJump (key :: needsOf c.legacy rest) (stored_of_mem _) hjump
    have hlanded := hjumped.landAll (fun jump hjump => List.mem_cons_of_mem _
      (List.mem_append_left _ (List.mem_map_of_mem hjump))) hland
    refine .of_light (fun _ => light_values) (hlanded.mono (List.Subset.refl _) ?_)
      (by simp [hopened]) rfl
    exact List.cons_subset_cons _ (List.subset_append_right _ _)
  · obtain ⟨taken, s₄, hjump, hnext⟩ := exists_of_liftM_bind hrun
    cases hnext
    obtain ⟨hjumped, -⟩ := hcompared.emitJump (key :: needsOf c.legacy rest) (stored_of_mem _) hjump
    refine .of_ready (hjumped.mono (List.Subset.refl _) ?_)
      (by simp [hopened]) rfl
    intro m hm
    simp only [List.singleton_append, marksOf, Continuation.marks, List.map_append, List.map_cons,
      List.map_nil, List.mem_append, List.mem_cons, List.not_mem_nil, or_false] at hm ⊢
    tauto

/-! ## Loops over arrays -/

section Foreach

variable {locals : ForeachLocals} {key value : UInt32} {scopes : List (List UInt32)}
  {needs inside : List UInt32} {marks : List Mark}

theorem array_mem_variables (legacy : Bool) :
    locals.array ∈ (Occurrence.foreach locals).variables legacy := by
  simp only [Occurrence.variables, ForeachLocals.variables]
  split <;> simp

theorem key_mem_variables (legacy : Bool) :
    locals.key ∈ (Occurrence.foreach locals).variables legacy := by
  simp only [Occurrence.variables, ForeachLocals.variables]
  split <;> simp

theorem reads_array (hsource : c.source = some (.foreach locals)) {stored : List UInt32}
    (hstored : locals.array ∈ stored) : c.Reads (stored.map .stored) locals.array :=
  .inr ⟨_, hsource, array_mem_variables _, stored_of_mem _ _ hstored⟩

theorem reads_key (hsource : c.source = some (.foreach locals))
    (hkey : key = locals.key ∨ c.own key) {stored : List UInt32} (hstored : key ∈ stored) :
    c.Reads (stored.map .stored) key := by
  rcases hkey with rfl | hown
  · exact .inr ⟨_, hsource, key_mem_variables _, stored_of_mem _ _ hstored⟩
  · exact .inl hown

theorem names_key (hsource : c.source = some (.foreach locals))
    (hkey : key = locals.key ∨ c.own key) : c.Names key := by
  rcases hkey with rfl | hown
  · exact .inr ⟨_, hsource, key_mem_variables _⟩
  · exact .inl hown

/-- Asks for the first key of an array. -/
def firstKey (legacy : Bool) (array : UInt32) : Lower Unit :=
  if legacy then do
    emitEval array .plain
    emitOp .firstArrayKey
  else discard (emit (.localVariable .firstArrayKeyCached array))

/-- Begins a round of a loop over an array, and yields the jump that leaves it. -/
def beginRound (legacy : Bool) (locals : ForeachLocals) (key value : UInt32) : Lower Key := do
  emitIsDefined key
  let exit ← emitJump .jumpOnFalse
  emitEval key .plain
  emitEval locals.array .plain
  emitOp .evalArray
  emitStore value
  unless legacy do
    emitEval key .plain
    emitEval locals.array .plain
    discard (emit (.localVariable .setNextArrayKeyCached locals.nextKey))
  return exit

theorem openForeach_eq (legacy : Bool) : openForeach legacy locals key value = (do
    emitStore locals.array
    firstKey legacy locals.array
    emitStore key
    enterLoop
    let header ← lastKey
    let exit ← beginRound legacy locals key value
    return (header, exit)) := by
  cases legacy <;> simp [openForeach, firstKey, beginRound]

theorem Holds.firstKey {stored : List UInt32} (hsource : c.source = some (.foreach locals))
    (hstored : locals.array ∈ stored) {legacy : Bool}
    (h : Holds c s scopes (stored.map .stored) marks)
    (hrun : Lowering.firstKey legacy locals.array s = .ok ((), s')) :
    Holds c s' scopes (stored.map .stored) marks := by
  have hreads := reads_array hsource hstored
  cases legacy with
  | true =>
      obtain ⟨_, s₁, heval, hop⟩ := Control.exists_of_bind_eq_ok hrun
      exact (h.emitEval hreads heval).emitOp hop
  | false =>
      obtain ⟨k, hemit⟩ := discard_eq_ok.mp hrun
      exact h.read hemit rfl hreads

/-- The round needs the key and the array; the newer machine then also has the next key. -/
theorem Holds.beginRound {exit : Key} {stored : List UInt32}
    (hsource : c.source = some (.foreach locals)) (hkey : key = locals.key ∨ c.own key)
    (hvalue : c.own value) (hstored : stored = key :: locals.array :: needs)
    (h : Holds c s scopes (stored.map .stored) marks)
    (hrun : Lowering.beginRound c.legacy locals key value s = .ok (exit, s')) :
    Holds c s' scopes (((if c.legacy then [locals.array, key]
      else [locals.array, key, locals.nextKey]) ++ needs).map .stored)
      (.waits exit needs :: marks) := by
  have hneeds : needs ⊆ stored := by
    rw [hstored]
    exact fun x hx => List.mem_cons_of_mem _ (List.mem_cons_of_mem _ hx)
  obtain ⟨_, s₁, hdefined, hrun⟩ := Control.exists_of_bind_eq_ok hrun
  obtain ⟨jump, s₂, hjump, hrun⟩ := Control.exists_of_bind_eq_ok hrun
  obtain ⟨_, s₃, hevalKey, hrun⟩ := Control.exists_of_bind_eq_ok hrun
  obtain ⟨_, s₄, hevalArray, hrun⟩ := Control.exists_of_bind_eq_ok hrun
  obtain ⟨_, s₅, helement, hrun⟩ := Control.exists_of_bind_eq_ok hrun
  obtain ⟨_, s₆, hstore, hrun⟩ := Control.exists_of_bind_eq_ok hrun
  have hreadsKey := reads_key hsource hkey (show key ∈ stored by simp [hstored])
  have hreadsArray := reads_array hsource (show locals.array ∈ stored by simp [hstored])
  obtain ⟨h₂, -⟩ := (h.emitIsDefined hreadsKey hdefined).emitJump needs
    (fun x hx => stored_of_mem _ x (hneeds hx)) hjump
  have h₅ := ((h₂.emitEval hreadsKey hevalKey).emitEval hreadsArray hevalArray).emitOp helement
  have h₆ := (h₅.emitStored (.inl hvalue) hstore).mono (List.subset_cons_self _ _)
    (List.Subset.refl _)
  cases hlegacy : c.legacy with
  | true =>
      rw [hlegacy] at hrun
      cases hrun
      refine h₆.mono (List.map_subset _ ?_) (List.Subset.refl _)
      intro x hx
      simp [hstored] at hx ⊢
      tauto
  | false =>
      rw [hlegacy] at hrun
      obtain ⟨_, s₇, hagainKey, hrun⟩ := Control.exists_of_bind_eq_ok hrun
      obtain ⟨_, s₈, hagainArray, hrun⟩ := Control.exists_of_bind_eq_ok hrun
      obtain ⟨_, s₉, hnext, hreturn⟩ := Control.exists_of_bind_eq_ok hrun
      cases hreturn
      obtain ⟨k, hemit⟩ := discard_eq_ok.mp hnext
      have hnames : c.Names locals.nextKey := by
        refine .inr ⟨_, hsource, ?_⟩
        rw [hlegacy]
        simp [Occurrence.variables, ForeachLocals.variables]
      have h₈ := (h₆.emitEval hreadsKey hagainKey).emitEval hreadsArray hagainArray
      have h₉ := h₈.store hemit rfl (.inl nofun) hnames (by simp)
      refine h₉.mono (fun fact hfact => ?_) (List.Subset.refl _)
      simp [hstored, Setting.stored] at hfact ⊢
      tauto

/-- What a loop over an array does before its body. -/
theorem Holds.openForeach {ends : Key × Key} (hsource : c.source = some (.foreach locals))
    (hkey : key = locals.key ∨ c.own key) (hvalue : c.own value)
    (hinside : inside = (if c.legacy then [locals.array, key]
      else [locals.array, key, locals.nextKey]) ++ needs)
    (h : Holds c s scopes (needs.map .stored) marks)
    (hrun : Lowering.openForeach c.legacy locals key value s = .ok (ends, s')) :
    Holds c s' (inside :: scopes) (inside.map .stored)
      (.lands ends.1 inside :: .waits ends.2 needs :: marks) := by
  rw [openForeach_eq] at hrun
  obtain ⟨_, s₁, harray, hrun⟩ := Control.exists_of_bind_eq_ok hrun
  obtain ⟨_, s₂, hfirst, hrun⟩ := Control.exists_of_bind_eq_ok hrun
  obtain ⟨_, s₃, hstore, hrun⟩ := Control.exists_of_bind_eq_ok hrun
  obtain ⟨_, s₄, henter, hrun⟩ := Control.exists_of_bind_eq_ok hrun
  obtain ⟨header, s₅, hlast, hrun⟩ := Control.exists_of_bind_eq_ok hrun
  obtain ⟨exit, s₆, hround, hreturn⟩ := Control.exists_of_bind_eq_ok hrun
  cases hlast
  cases hreturn
  have hnames : c.Names locals.array := .inr ⟨_, hsource, array_mem_variables _⟩
  have h₂ := (h.emitStored hnames harray).firstKey hsource List.mem_cons_self hfirst
  have h₄ := (h₂.emitStored (names_key hsource hkey) hstore).enterLoop inside henter
  have hsub : key :: locals.array :: needs ⊆ inside := by
    rw [hinside]
    intro x hx
    split <;> simp at hx ⊢ <;> tauto
  have hheader := h₄.mark (stored_of_mem _) hsub
  have h₆ := hheader.beginRound hsource hkey hvalue rfl hround
  rw [← hinside] at h₆
  exact h₆.mono (List.Subset.refl _) (List.Perm.swap _ _ _).subset

/-- Asks for the key of the next round, which the newer machine has stored. -/
def followingKey (legacy : Bool) (locals : ForeachLocals) (key : UInt32) : Lower Unit :=
  if legacy then do
    emitEval key .plain
    emitEval locals.array .plain
    emitOp .nextArrayKey
  else emitEval locals.nextKey .plain

theorem closeForeach_eq (legacy : Bool) (header exit continueAt : Key) :
    closeForeach legacy locals key header exit continueAt = (do
      followingKey legacy locals key
      emitStore key
      closeLoop header (some exit) continueAt) := by
  cases legacy <;> simp [closeForeach, followingKey]

theorem Holds.followingKey (hsource : c.source = some (.foreach locals))
    (hkey : key = locals.key ∨ c.own key)
    (hinside : inside = (if c.legacy then [locals.array, key]
      else [locals.array, key, locals.nextKey]) ++ needs)
    (h : Holds c s scopes (inside.map .stored) marks)
    (hrun : Lowering.followingKey c.legacy locals key s = .ok ((), s')) :
    Holds c s' scopes (inside.map .stored) marks := by
  cases hlegacy : c.legacy with
  | true =>
      rw [hlegacy] at hrun
      obtain ⟨_, s₁, hevalKey, hrun⟩ := Control.exists_of_bind_eq_ok hrun
      obtain ⟨_, s₂, hevalArray, hop⟩ := Control.exists_of_bind_eq_ok hrun
      have hreadsKey := reads_key hsource hkey (show key ∈ inside by simp [hinside, hlegacy])
      have hreadsArray := reads_array hsource
        (show locals.array ∈ inside by simp [hinside, hlegacy])
      exact ((h.emitEval hreadsKey hevalKey).emitEval hreadsArray hevalArray).emitOp hop
  | false =>
      rw [hlegacy] at hrun
      refine h.emitEval (.inr ⟨_, hsource, ?_, stored_of_mem _ _ ?_⟩) hrun
      · rw [hlegacy]
        simp [Occurrence.variables, ForeachLocals.variables]
      · simp [hinside, hlegacy]

/-- What a loop over an array does behind its body. -/
theorem Holds.closeForeach {header exit continueAt : Key}
    (hsource : c.source = some (.foreach locals)) (hkey : key = locals.key ∨ c.own key)
    (hinside : inside = (if c.legacy then [locals.array, key]
      else [locals.array, key, locals.nextKey]) ++ needs)
    (hheader : .lands header inside ∈ marks) (hexit : .waits exit needs ∈ marks)
    (hcontinue : .lands continueAt inside ∈ marks)
    (houter : ∀ outer ∈ scopes.head?, outer ⊆ needs)
    (h : Holds c s (inside :: scopes) (inside.map .stored) marks)
    (hrun : Lowering.closeForeach c.legacy locals key header exit continueAt s = .ok ((), s')) :
    Holds c s' scopes (needs.map .stored) marks := by
  have hneeds : needs ⊆ inside := by
    rw [hinside]
    exact List.subset_append_right _ _
  rw [closeForeach_eq] at hrun
  obtain ⟨_, s₁, hfollowing, hrun⟩ := Control.exists_of_bind_eq_ok hrun
  obtain ⟨_, s₂, hstore, hclose⟩ := Control.exists_of_bind_eq_ok hrun
  have h₁ := h.followingKey hsource hkey hinside hfollowing
  have h₂ := (h₁.emitStored (names_key hsource hkey) hstore).mono (List.subset_cons_self _ _)
    (List.Subset.refl _)
  exact h₂.closeLoop hheader (stored_of_mem _) (fun e he => by rwa [← Option.some.inj he]) hcontinue
    hneeds (fun x hx => stored_of_mem _ x (hneeds hx))
    (fun outer hmem => List.Subset.trans (houter outer hmem) hneeds) hclose

theorem rule_foreachBody {body : Node} (hsource : c.source = some (.foreach locals))
    (hopened : .foreach locals ∈ opened) (hkey : key = locals.key ∨ c.own key) (hvalue : c.own value) :
    (Continuation.foreachBody locals key value body).Keeps c opened := by
  intro s s' next rest h hrun
  obtain ⟨legacy, s₁, hlegacy, hrun⟩ := exists_of_liftM_bind hrun
  obtain ⟨ends, s₂, hopen, hnext⟩ := exists_of_liftM_bind hrun
  cases hlegacy
  cases hnext
  rw [Holds.legacy_eq h] at hopen
  have hholds := Holds.openForeach hsource hkey hvalue rfl h hopen
  exact .of_ready hholds (by simp [hkey, hopened]) rfl

theorem rule_foreachStep {header exit : Key} (hsource : c.source = some (.foreach locals))
    (hkey : key = locals.key ∨ c.own key) :
    (Continuation.foreachStep locals key header exit).Keeps c opened := by
  intro s s' next rest h hrun
  obtain ⟨continueAt, s₁, hlast, hrun⟩ := exists_of_liftM_bind hrun
  obtain ⟨legacy, s₂, hlegacy, hrun⟩ := exists_of_liftM_bind hrun
  obtain ⟨_, s₃, hclose, hnext⟩ := exists_of_liftM_bind hrun
  cases hlast
  cases hlegacy
  cases hnext
  rw [Holds.legacy_eq h] at hclose
  have hmarked := Holds.mark h (stored_of_mem _) (List.Subset.refl _)
  have hclosed := Holds.closeForeach hsource hkey rfl (List.mem_cons_of_mem _ List.mem_cons_self)
    (List.mem_cons_of_mem _ (List.mem_cons_of_mem _ List.mem_cons_self)) List.mem_cons_self
    outer_subset hmarked hclose
  refine .of_ready (hclosed.mono (List.Subset.refl _) fun m hm => ?_) (by simp) rfl
  exact List.mem_cons_of_mem _ (List.mem_cons_of_mem _ (List.mem_cons_of_mem _ hm))

end Foreach

/-! ## Taking reserved variables -/

theorem Holds.withKeys {scopes : List (List UInt32)} {known : List (Fact Occurrence)}
    {marks : List Mark} (h : Holds c s scopes known marks) (switchKeys : List UInt32)
    (foreachKeys : List ForeachLocals) :
    Holds { c with switchKeys, foreachKeys }
      { s with function := { s.function with switchKeys, foreachKeys } } scopes known marks := by
  obtain ⟨code, facts, h, hrefs⟩ := h
  exact ⟨code, facts, ⟨h.chain, h.nonempty, h.behind, h.scriptTarget, h.functionTarget, rfl, rfl,
    h.declared, h.annotates, h.attributed, h.known, h.marks, h.scopes⟩, hrefs⟩

theorem Holds.keys_eq {scopes : List (List UInt32)} {known : List (Fact Occurrence)}
    {marks : List Mark} (h : Holds c s scopes known marks) :
    s.function.switchKeys = c.switchKeys ∧ s.function.foreachKeys = c.foreachKeys := by
  obtain ⟨_, _, h, -⟩ := h
  exact ⟨h.switchKeys, h.foreachKeys⟩

theorem rule_switch {n : Node} {context : Context} : Keeps c opened (.node n context) (planSwitch n) := by
  intro s s' next rest h hrun
  obtain ⟨key, s₁, hpop, hrun⟩ := exists_of_liftM_bind hrun
  obtain ⟨others, hkeys, rfl⟩ := Control.popSwitchKey_eq_ok.mp hpop
  obtain ⟨value, -, hrun⟩ := exists_of_check_bind hrun
  obtain ⟨branches, s₂, hsuffix, hrun⟩ := exists_of_attempt_bind hrun
  rw [state_of_suffixFrom hsuffix] at hrun
  obtain ⟨hswitches, hforeaches⟩ := Holds.keys_eq h
  cases hother : branches.find? fun b => !b.is "case" && !b.is "default" with
  | some other =>
      rw [hother] at hrun
      cases hrun
  | none =>
      rw [hother] at hrun
      obtain ⟨_, s₃, henter, hnext⟩ := exists_of_liftM_bind hrun
      cases hnext
      have hpopped := Holds.withKeys h others s.function.foreachKeys
      have hentered := hpopped.enterLoop (needsOf c.legacy rest) henter
      refine ⟨_, rfl, hentered, by simp, ?_⟩
      rw [Setting.reserved, Setting.reserved, ← hswitches, hkeys, hforeaches]
      exact .refl _

/-- A local that a node names is one of the script's own. -/
theorem Holds.namedLocal {scopes : List (List UInt32)} {known : List (Fact Occurrence)}
    {marks : List Mark} {n : Node} {x : UInt32}
    (h : Holds c s scopes known marks)
    (hown : ∀ name ∈ n.text?, ∀ x, Name.hash? c.target.revision name = some x → c.own x)
    (hrun : Lowering.namedLocal n s = .ok (x, s')) :
    c.own x ∧ Holds c s' scopes known marks := by
  unfold Lowering.namedLocal at hrun
  cases htext : n.text with
  | error e =>
      rw [htext] at hrun
      cases hrun
  | ok name =>
      rw [htext] at hrun
      have hrun : declaredLocal name s = .ok (x, s') := hrun
      obtain ⟨hhash, hholds⟩ := h.hash_of_declaredLocal hrun
      exact ⟨hown name (text?_of_text htext) x hhash, hholds⟩

theorem mem_take_of_child {n child : Node} {position count : Nat}
    (h : n.child position = .ok child) (hcount : position < count) :
    child ∈ n.children.take count := by
  unfold Node.child at h
  split at h
  case h_1 hchild =>
      cases h
      obtain ⟨hlt, rfl⟩ := List.getElem?_eq_some_iff.mp hchild
      rw [List.mem_take_iff_getElem]
      exact ⟨position, by omega, rfl⟩
  case h_2 => cases h

theorem rule_foreach {n : Node} {context : Context} (withKey : Bool)
    (hown : ∀ child ∈ n.children.take (if withKey then 2 else 1), ∀ name ∈ child.text?,
      ∀ x, Name.hash? c.target.revision name = some x → c.own x) :
    Keeps c opened (.node n context) (planForeach n withKey) := by
  intro s s' next rest h hrun
  obtain ⟨locals, s₁, hpop, hrun⟩ := exists_of_liftM_bind hrun
  obtain ⟨others, hkeys, rfl⟩ := Control.popForeachLocals_eq_ok.mp hpop
  obtain ⟨hswitches, hforeaches⟩ := Holds.keys_eq h
  have hpopped := Holds.withKeys h s.function.switchKeys others
  -- both sorts of loops go on alike once the key is known
  have hloop {offset : Nat} {key : UInt32} {t : State} (hkey : key = locals.key ∨ c.own key)
      (hoffset : offset < if withKey then 2 else 1)
      (ht : Holds { c with switchKeys := s.function.switchKeys, foreachKeys := others } t
        (scopesOf c.legacy rest) ((needsOf c.legacy rest).map .stored) (marksOf c.legacy rest))
      (hrun : (do
        let value ← namedLocal (← n.child offset)
        let collection ← n.child (offset + 1)
        let body ← n.child (offset + 2)
        return [.node collection .plain, .resume (.foreachBody locals key value body)] :
          Attempt (List Task)) t = .ok (next, s')) : Outcome c opened s' next rest := by
    obtain ⟨named, hnamed, hrun⟩ := exists_of_check_bind hrun
    obtain ⟨value, t', hvalue, hrun⟩ := exists_of_liftM_bind hrun
    obtain ⟨collection, -, hrun⟩ := exists_of_check_bind hrun
    obtain ⟨body, -, hnext⟩ := exists_of_check_bind hrun
    cases hnext
    obtain ⟨hownValue, hholds⟩ := ht.namedLocal (hown named (mem_take_of_child hnamed hoffset)) hvalue
    have hownValue : c.own value := hownValue
    refine ⟨_, rfl, hholds, by simp [hkey, hownValue], ?_⟩
    have hheld : heldBy c.legacy [.node collection .plain,
        .resume (.foreachBody locals key value body)] = locals.variables c.legacy :=
      List.append_nil _
    have hreserved : c.reserved = s.function.switchKeys ++
        (locals.variables c.legacy ++ others.flatMap (ForeachLocals.variables c.legacy)) := by
      rw [Setting.reserved, ← hswitches, ← hforeaches, hkeys, List.flatMap_cons]
    rw [hheld, hreserved]
    exact List.perm_append_comm_assoc _ _ _
  cases withKey with
  | false => exact hloop (.inl rfl) (by simp) hpopped hrun
  | true =>
      obtain ⟨named, hnamed, hrun⟩ := exists_of_check_bind hrun
      obtain ⟨key, t, hkey, hrun⟩ := exists_of_liftM_bind hrun
      obtain ⟨hownKey, hholds⟩ := hpopped.namedLocal (hown named (mem_take_of_child hnamed (by simp)))
        hkey
      exact hloop (.inr hownKey) (by simp) hholds hrun

end Rules

end GscAssembler.Lowering
