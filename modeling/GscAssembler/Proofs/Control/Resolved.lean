import GscAssembler.Proofs.Control.Rules
import GscAssembler.Proofs.Control.Steps
import GscAssembler.Proofs.Reference.Index

/-!
# Lowered code names what exists

Lowering only ever adds to what code can refer to: locals stay declared, and table entries keep their
values (`Extends`).  Every instruction of a sketched program is one of the machine it is made for, its
local is declared, and its table entry has a value (`WellNamed`).  Since nothing is taken away again,
this still holds when the function is finished (`resolves_of_follows`).
-/

namespace GscAssembler.Code

open Reference (TableKind)

/-- The table entry that an instruction names. -/
def Instruction.uses? : Instruction → Option (TableKind × Nat)
  | .string _ entry => some (.strings, entry)
  | .debugString entry => some (.debug, entry)
  | .call _ entry | .functionPointer _ entry => some (.imports, entry)
  | .global _ entry => some (.globals, entry)
  | _ => none

end GscAssembler.Code

namespace GscAssembler.Control

open Code (Context ForeachLocals Instruction LoopJump Opcode ScriptFunction)
open Lowering
open Reference (TableKind Tables TableValue)

variable {α β : Type}

/-! ## Programs with a property -/

namespace Program

/-- Whether all instructions of a program have a property, and all its branches depend on a value. -/
def Every (P : Instruction → Prop) : Program → Prop
  | nothing | loopJump _ _ => True
  | instruction i => P i
  | sequence first second | emptyCase first second => first.Every P ∧ second.Every P
  | skip code body => code.isConditional ∧ body.Every P
  | choose code body otherwise => code.isConditional ∧ body.Every P ∧ otherwise.Every P
  | loop start test body step _ _ => start.Every P ∧ test.Every P ∧ body.Every P ∧ step.Every P
  | switch body => body.Every P
  | case test body rest => test.Every P ∧ body.Every P ∧ rest.Every P

theorem Every.mono {P Q : Instruction → Prop} (h : ∀ i, P i → Q i) {p : Program} :
    p.Every P → p.Every Q := by
  induction p with
  | nothing | loopJump _ _ => exact id
  | instruction i => exact h i
  | sequence _ _ ih ih' | emptyCase _ _ ih ih' => exact And.imp ih ih'
  | skip _ _ ih => exact And.imp_right ih
  | choose _ _ _ ih ih' => exact And.imp_right (And.imp ih ih')
  | loop _ _ _ _ _ _ ihStart ihTest ihBody ihStep =>
      exact And.imp ihStart (And.imp ihTest (And.imp ihBody ihStep))
  | switch _ ih => exact ih
  | case _ _ _ ihTest ihBody ihRest => exact And.imp ihTest (And.imp ihBody ihRest)

end Program

/-! ## What lowering keeps -/

/-- Whether a state is one that lowering can come to from another. -/
structure Extends (s s' : State) : Prop where
  script : s'.script = { s.script with tables := s'.script.tables, names := s'.script.names }
  function : s'.function = { s.function with
    locals := s'.function.locals, switchKeys := s'.function.switchKeys
    foreachKeys := s'.function.foreachKeys }
  tables : s.script.tables.Extends s'.script.tables
  locals : ∀ hash ∈ s.function.locals, hash ∈ s'.function.locals

theorem Extends.refl (s : State) : Extends s s :=
  ⟨rfl, rfl, .refl _, fun _ h => h⟩

theorem Extends.trans {s s₁ s₂ : State} (h : Extends s s₁) (h' : Extends s₁ s₂) : Extends s s₂ where
  script := by rw [h'.script, h.script]
  function := by rw [h'.function, h.function]
  tables := h.tables.trans h'.tables
  locals := fun hash hhash => h'.locals hash (h.locals hash hhash)

/-- Whether a state is one of lowering for a target: what it keeps for later use is there. -/
structure Consistent (target : Target) (s : State) : Prop where
  script : s.script.target = target
  function : s.function.target = target
  tables : s.script.tables.Indexed
  switchKeys : ∀ hash ∈ s.function.switchKeys, hash ∈ s.function.locals
  foreachKeys : ∀ locals ∈ s.function.foreachKeys, ∀ hash ∈ usedLocals target.revision locals,
    hash ∈ s.function.locals

/-- Whether a state comes after another, with some locals declared. -/
structure Leaves (target : Target) (s s' : State) (locals : List UInt32) : Prop where
  consistent : Consistent target s'
  extended : Extends s s'
  declared : ∀ hash ∈ locals, hash ∈ s'.function.locals

/-- Whether a step asks a table for a value. -/
def Interns (x : Lower Nat) (kind : TableKind) (value : TableValue) : Prop :=
  ∀ s : State, s.script.tables.Indexed → ∃ entry tables, x s = .ok (entry, withTables s tables) ∧
    s.script.tables.Interned tables kind entry value

theorem interns_string (text : String) : Interns (internString text) .strings (.text text) :=
  fun _ h => ⟨_, _, rfl, h.internString text⟩

theorem interns_debugString (hash : UInt32) : Interns (internDebugString hash) .debug (.hash hash) :=
  fun _ h => ⟨_, _, rfl, h.internDebugString hash⟩

theorem interns_global (hash : UInt32) : Interns (internGlobal hash) .globals (.hash hash) :=
  fun _ h => ⟨_, _, rfl, h.internGlobal hash⟩

theorem interns_import (key : Reference.ImportKey) :
    Interns (internImport key) .imports (.function key) :=
  fun _ h => ⟨_, _, rfl, h.internImport key⟩

section Silent

variable {target : Target} {s s' : State}

theorem Consistent.withNames (h : Consistent target s) (names : Name.Registry) :
    Leaves target s (withNames s names) [] :=
  ⟨⟨h.script, h.function, h.tables, h.switchKeys, h.foreachKeys⟩, ⟨rfl, rfl, .refl _, fun _ h => h⟩,
    by simp⟩

theorem exists_addLocal (f : ScriptFunction) (hash : UInt32) :
    ∃ locals, f.addLocal hash = { f with locals } ∧ hash ∈ locals ∧
      ∀ other ∈ f.locals, other ∈ locals := by
  unfold ScriptFunction.addLocal
  split
  · rename_i h
    exact ⟨f.locals, rfl, by simpa [ScriptFunction.hasLocal] using h, fun _ h => h⟩
  · exact ⟨f.locals.push hash, rfl, by simp, fun _ h => by simp [h]⟩

theorem Consistent.withLocal (h : Consistent target s) (hash : UInt32) :
    Leaves target s (withLocal s hash) [hash] := by
  obtain ⟨locals, hlocals, hnew, hold⟩ := exists_addLocal s.function hash
  rw [Control.withLocal, hlocals]
  exact ⟨⟨h.script, h.function, h.tables, fun _ hkey => hold _ (h.switchKeys _ hkey),
      fun _ hkey _ hhash => hold _ (h.foreachKeys _ hkey _ hhash)⟩,
    ⟨rfl, rfl, .refl _, hold⟩, by simpa using hnew⟩

theorem Leaves.trans {s₁ : State} {first second : List UInt32} (h : Leaves target s s₁ first)
    (h' : Leaves target s₁ s' second) : Leaves target s s' second :=
  ⟨h'.consistent, h.extended.trans h'.extended, h'.declared⟩

/-- Steps without code lead to consistent states. -/
theorem Silent.leaves {known : List UInt32} {x : Lower α} {learned : α → List UInt32}
    (hx : Silent target known x learned) :
    ∀ {s : State} {a : α} {s' : State}, Consistent target s →
      (∀ hash ∈ known, hash ∈ s.function.locals) → x s = .ok (a, s') →
      Leaves target s s' (learned a) := by
  induction hx with
  | pure a hlearned =>
      intro s b s' h hknown hrun
      cases hrun
      exact ⟨h, .refl s, fun hash hhash => hknown hash (hlearned hhash)⟩
  | throw e => intro s b s' _ _ hrun; cases hrun
  | bind hx hf ihx ihf =>
      intro s b s' h hknown hrun
      obtain ⟨a, s₁, hfirst, hsecond⟩ := exists_of_bind_eq_ok hrun
      have h₁ := ihx h hknown hfirst
      refine h₁.trans (ihf a h₁.consistent (fun hash hhash => ?_) hsecond)
      -- a local known before the first part is still declared behind it
      rcases List.mem_append.mp hhash with hhash | hhash
      · exact h₁.declared hash hhash
      · exact h₁.extended.locals hash (hknown hash hhash)
  | atTarget _ ih =>
      intro s b s' h hknown hrun
      refine ih h hknown ?_
      rw [← h.script]
      exact hrun
  | namespaceHash | callFlags =>
      intro s b s' h _ hrun
      cases hrun
      exact ⟨h, .refl s, by simp [nothingLearned]⟩
  | hash name =>
      intro s b s' h _ hrun
      obtain ⟨names, -, rfl⟩ := hashName_eq_ok.mp hrun
      exact h.withNames names
  | declare name =>
      intro s b s' h _ hrun
      obtain ⟨names, -, rfl⟩ := declare_eq_ok.mp hrun
      exact (h.withNames names).trans ((h.withNames names).consistent.withLocal b)
  | declaredLocal name =>
      intro s b s' h _ hrun
      obtain ⟨names, -, hlocal, rfl⟩ := declaredLocal_eq_ok.mp hrun
      have hmem : b ∈ s.function.locals := by simpa [ScriptFunction.hasLocal] using hlocal
      refine ⟨(h.withNames names).consistent, (h.withNames names).extended, fun hash hhash => ?_⟩
      obtain rfl := List.mem_singleton.mp hhash
      exact hmem
  | popSwitchKey =>
      intro s b s' h _ hrun
      obtain ⟨rest, hkeys, rfl⟩ := popSwitchKey_eq_ok.mp hrun
      have hall := h.switchKeys
      rw [hkeys] at hall
      exact ⟨⟨h.script, h.function, h.tables, fun _ hkey => hall _ (by simp [hkey]), h.foreachKeys⟩,
        ⟨rfl, rfl, .refl _, fun _ h => h⟩, by simpa using hall b (by simp)⟩
  | popForeachLocals =>
      intro s b s' h _ hrun
      obtain ⟨rest, hkeys, rfl⟩ := popForeachLocals_eq_ok.mp hrun
      have hall := h.foreachKeys
      rw [hkeys] at hall
      exact ⟨⟨h.script, h.function, h.tables, h.switchKeys, fun _ hkey => hall _ (by simp [hkey])⟩,
        ⟨rfl, rfl, .refl _, fun _ h => h⟩, hall b (by simp)⟩
  | reserve hswitches hforeaches =>
      intro s b s' h hknown hrun
      cases hrun
      refine ⟨⟨h.script, h.function, h.tables, fun hash hkey => ?_, fun locals hkey => ?_⟩,
        ⟨rfl, rfl, .refl _, fun _ h => h⟩, by simp [nothingLearned]⟩
      · rcases List.mem_append.mp hkey with hkey | hkey
        · exact hknown hash (hswitches hkey)
        · exact h.switchKeys hash hkey
      · rcases List.mem_append.mp hkey with hkey | hkey
        · exact fun hash hhash => hknown hash (hforeaches locals hkey hhash)
        · exact h.foreachKeys locals hkey

end Silent

/-! ## Instructions that name what exists -/

/-- Whether an instruction is one of the machine, and what it names exists. -/
structure WellNamed (target : Target) (locals : Array UInt32) (tables : Tables) (i : Instruction) :
    Prop where
  emittable : i.Emittable target.revision
  locals : ∀ code hash, i = .localVariable code hash → hash ∈ locals
  entries : ∀ kind entry, i.uses? = some (kind, entry) →
    ∃ value, tables.value? kind entry = some value

theorem WellNamed.mono {target : Target} {locals locals' : Array UInt32} {tables tables' : Tables}
    (hlocals : ∀ hash ∈ locals, hash ∈ locals') (htables : tables.Extends tables') {i : Instruction}
    (h : WellNamed target locals tables i) : WellNamed target locals' tables' i where
  emittable := h.emittable
  locals := fun code hash heq => hlocals hash (h.locals code hash heq)
  entries := fun kind entry heq =>
    (h.entries kind entry heq).imp fun value => htables kind entry value

/-- Whether a program names what exists in a state. -/
def NamesExisting (target : Target) (s : State) (p : Program) : Prop :=
  p.Every (WellNamed target s.function.locals s.script.tables)

theorem NamesExisting.mono {target : Target} {s s' : State} (h : Extends s s') {p : Program}
    (hp : NamesExisting target s p) : NamesExisting target s' p :=
  Program.Every.mono (fun _ => .mono h.locals h.tables) hp

/-- Whether the program of a sketch names what exists once the sketch is read. -/
def Resolves (target : Target) (known : List UInt32) (y : Sketch α) (learned : α → List UInt32) :
    Prop :=
  ∀ ⦃s : State⦄ ⦃a : α⦄ ⦃p : Program⦄ ⦃s' : State⦄, Consistent target s →
    (∀ hash ∈ known, hash ∈ s.function.locals) → y.run s = .ok ((a, p), s') →
    Leaves target s s' (learned a) ∧ NamesExisting target s' p

section Pieces

variable {target : Target} {known : List UInt32}

theorem resolves_silent {x : Lower α} {learned : α → List UInt32}
    (hx : Silent target known x learned) : Resolves target known (.silent x) learned := by
  intro s a p s' h hknown hrun
  obtain ⟨hstep, rfl⟩ := silent_eq_ok.mp hrun
  exact ⟨hx.leaves h hknown hstep, trivial⟩

theorem resolves_bind {x : Sketch α} {f : α → Sketch β} {learned : α → List UInt32}
    {later : β → List UInt32} (hx : Resolves target known x learned)
    (hf : ∀ a, Resolves target (learned a ++ known) (f a) later) :
    Resolves target known (x >>= f) later := by
  intro s b p s' h hknown hrun
  obtain ⟨a, first, s₁, second, hfirst, hsecond, rfl⟩ := exists_of_sketch_bind_eq_ok hrun
  obtain ⟨h₁, hevery₁⟩ := hx h hknown hfirst
  obtain ⟨h₂, hevery₂⟩ := hf a h₁.consistent (fun hash hhash => by
    rcases List.mem_append.mp hhash with hhash | hhash
    · exact h₁.declared hash hhash
    · exact h₁.extended.locals hash (hknown hash hhash)) hsecond
  exact ⟨h₁.trans h₂, hevery₁.mono h₂.extended, hevery₂⟩

theorem resolves_atTarget {f : Target → Sketch α} {learned : α → List UInt32}
    (hf : Resolves target known (f target) learned) :
    Resolves target known (.silent getTarget >>= f) learned := by
  intro s a p s' h hknown hrun
  obtain ⟨_, _, s₁, second, hfirst, hsecond, rfl⟩ := exists_of_sketch_bind_eq_ok hrun
  obtain ⟨htarget, rfl⟩ := silent_eq_ok.mp hfirst
  cases htarget
  rw [h.script] at hsecond
  obtain ⟨h₁, hevery⟩ := hf h hknown hsecond
  exact ⟨h₁, trivial, hevery⟩

theorem resolves_write {i : Instruction} (hemittable : i.Emittable target.revision)
    (hnames : OnlyNames known i) :
    Resolves target known (write (.instruction i)) nothingLearned := by
  intro s a p s' h hknown hrun
  cases hrun
  refine ⟨⟨h, .refl s, by simp [nothingLearned]⟩, hemittable, ?_, ?_⟩
  · rintro code hash rfl
    exact hknown hash hnames
  · intro kind entry hentry
    cases i <;> simp_all [Instruction.uses?, OnlyNames]

theorem resolves_eval {hash : UInt32} (context : Context) (hknown : hash ∈ known) :
    Resolves target known (writeEval hash context) nothingLearned := by
  intro s a p s' h hdeclared hrun
  obtain ⟨_, _, s₁, second, hfirst, hsecond, rfl⟩ := exists_of_sketch_bind_eq_ok hrun
  obtain ⟨htarget, rfl⟩ := silent_eq_ok.mp hfirst
  cases htarget
  rw [h.function] at hsecond
  have hemittable : Instruction.Emittable target.revision
      (.localVariable (ScriptFunction.evalOpcode target context) hash) := by
    simp only [Instruction.Emittable, ScriptFunction.evalOpcode]
    split
    · rfl
    · split <;> rfl
  obtain ⟨h₁, hevery⟩ := resolves_write hemittable hknown h hdeclared hsecond
  exact ⟨h₁, trivial, hevery⟩

theorem checked_of_checked {value checked : Number.Constant} (h : value.checked = .ok checked) :
    checked.checked = .ok checked := by
  have heq : value = checked := by
    cases value with
    | float bits => exact Except.ok.inj h
    | int value =>
        rw [Number.Constant.checked] at h
        split at h
        · cases h
        · exact Except.ok.inj h
  rwa [← heq] at h ⊢

theorem resolves_number (value : Number.Constant) :
    Resolves target known (writeNumber value) nothingLearned := by
  intro s a p s' h hknown hrun
  obtain ⟨checked, _, s₁, second, hfirst, hsecond, rfl⟩ := exists_of_sketch_bind_eq_ok hrun
  cases hchecked : value.checked with
  | error e => rw [hchecked] at hfirst; cases hfirst
  | ok result =>
      rw [hchecked] at hfirst
      cases hfirst
      obtain ⟨h₁, hevery⟩ := resolves_write (i := .number checked) (checked_of_checked hchecked)
        trivial h hknown hsecond
      exact ⟨h₁, trivial, hevery⟩

theorem lt_of_hash64 {names names' : Name.Registry} {name : String} {value : UInt64}
    (h : names.hash64 .legacy name = .ok (value, names')) : value.toNat < 2 ^ 32 := by
  unfold Name.Registry.hash64 at h
  split at h
  · split at h
    · cases h
    · rename_i hlarge
      cases h
      exact Nat.lt_of_not_le fun hle => hlarge ⟨rfl, hle⟩
  · have hvalue : (names.hashName .legacy name).1.toUInt64 = value :=
      congrArg Prod.fst (Except.ok.inj h)
    rw [← hvalue, UInt32.toNat_toUInt64]
    exact UInt32.toNat_lt _

theorem resolves_canonicalHash (name : String) :
    Resolves target known (do write (.instruction (.hash (← hashName64 name)))) nothingLearned := by
  intro s a p s' h hknown hrun
  obtain ⟨value, _, s₁, second, hfirst, hsecond, rfl⟩ := exists_of_sketch_bind_eq_ok hrun
  obtain ⟨hhash, rfl⟩ := silent_eq_ok.mp hfirst
  obtain ⟨names, hnames, rfl⟩ := hashName64_eq_ok.mp hhash
  have hemittable : Instruction.Emittable target.revision (.hash value) := by
    intro hlegacy
    rw [h.script, hlegacy] at hnames
    exact lt_of_hash64 hnames
  have h₀ := h.withNames names
  obtain ⟨h₁, hevery⟩ := resolves_write hemittable trivial h₀.consistent hknown hsecond
  exact ⟨h₀.trans h₁, trivial, hevery⟩

/-- A piece that asks for a value of a table and refers to it. -/
theorem resolves_intern (instruction : Nat → Instruction) {x : Lower Nat} {kind : TableKind}
    {value : TableValue} (hx : Interns x kind value)
    (hemittable : ∀ entry, (instruction entry).Emittable target.revision)
    (hentry : ∀ entry, (instruction entry).uses? = some (kind, entry)) :
    Resolves target known (do
      let entry ← Sketch.silent x
      write (.instruction (instruction entry))) nothingLearned := by
  intro s a p s' h hknown hrun
  obtain ⟨entry, _, s₁, second, hfirst, hsecond, rfl⟩ := exists_of_sketch_bind_eq_ok hrun
  obtain ⟨hstep, rfl⟩ := silent_eq_ok.mp hfirst
  obtain ⟨_, tables, hasked, hinterned⟩ := hx s h.tables
  rw [hasked] at hstep
  cases hstep
  cases hsecond
  refine ⟨⟨⟨h.script, h.function, hinterned.indexed, h.switchKeys, h.foreachKeys⟩,
      ⟨rfl, rfl, hinterned.extended, fun _ h => h⟩, by simp [nothingLearned]⟩, trivial,
    hemittable _, ?_, ?_⟩
  · intro code hash heq
    have := hentry entry
    rw [heq] at this
    cases this
  · intro other position hother
    rw [hentry] at hother
    cases hother
    exact ⟨value, hinterned.value⟩

theorem resolves_skip {code : Opcode} {body : Sketch Unit} (hcode : code.isConditional)
    (hbody : Resolves target known body nothingLearned) :
    Resolves target known (skipping code body) nothingLearned := by
  intro s a p s' h hknown hrun
  obtain ⟨q, hq, rfl⟩ := wrap_eq_ok.mp hrun
  obtain ⟨h₁, hevery⟩ := hbody h hknown hq
  exact ⟨h₁, hcode, hevery⟩

/-- Two pieces one after the other that become parts of a larger program. -/
theorem Resolves.pair {x y : Sketch Unit} (hx : Resolves target known x nothingLearned)
    (hy : Resolves target known y nothingLearned) {s s₁ s' : State} {p q : Program}
    (h : Consistent target s) (hknown : ∀ hash ∈ known, hash ∈ s.function.locals)
    (hp : x.run s = .ok (((), p), s₁)) (hq : y.run s₁ = .ok (((), q), s')) :
    Leaves target s s' [] ∧ NamesExisting target s' p ∧ NamesExisting target s' q := by
  obtain ⟨h₁, hevery₁⟩ := hx h hknown hp
  obtain ⟨h₂, hevery₂⟩ := hy h₁.consistent
    (fun hash hhash => h₁.extended.locals hash (hknown hash hhash)) hq
  exact ⟨h₁.trans h₂, hevery₁.mono h₂.extended, hevery₂⟩

theorem resolves_choose {code : Opcode} {body otherwise : Sketch Unit} (hcode : code.isConditional)
    (hbody : Resolves target known body nothingLearned)
    (hotherwise : Resolves target known otherwise nothingLearned) :
    Resolves target known (choosing code body otherwise) nothingLearned := by
  intro s a p s' h hknown hrun
  obtain ⟨q, s₁, r, hq, hr, rfl⟩ := join_eq_ok.mp hrun
  obtain ⟨h', hevery⟩ := hbody.pair hotherwise h hknown hq hr
  exact ⟨h', hcode, hevery⟩

theorem resolves_optional {x : Option (Lower Unit × Sketch Unit)}
    (h : ∀ p ∈ x, Resolves target known p.2 nothingLearned) :
    Resolves target known (optional (x.map (·.2))) nothingLearned := by
  cases x with
  | none =>
      intro s a p s' h hknown hrun
      cases hrun
      exact ⟨⟨h, .refl s, by simp [nothingLearned]⟩, trivial⟩
  | some p => exact h p rfl

theorem resolves_loop {start body : Sketch Unit} {test step : Option (Lower Unit × Sketch Unit)}
    (hstart : Resolves target known start nothingLearned)
    (htest : ∀ p ∈ test, Resolves target known p.2 nothingLearned)
    (hbody : Resolves target known body nothingLearned)
    (hstep : ∀ p ∈ step, Resolves target known p.2 nothingLearned) :
    Resolves target known (looping start (test.map (·.2)) body (step.map (·.2))) nothingLearned := by
  intro s a p s' h hknown hrun
  obtain ⟨p₁, s₁, p₂, s₂, p₃, s₃, p₄, hp₁, hp₂, hp₃, hp₄, rfl⟩ := looping_eq_ok.mp hrun
  obtain ⟨h₂, hevery₁, hevery₂⟩ := hstart.pair (resolves_optional htest) h hknown hp₁ hp₂
  obtain ⟨h₄, hevery₃, hevery₄⟩ := hbody.pair (resolves_optional hstep) h₂.consistent
    (fun hash hhash => h₂.extended.locals hash (hknown hash hhash)) hp₃ hp₄
  exact ⟨h₂.trans h₄, hevery₁.mono h₄.extended,
    hevery₂.mono h₄.extended, hevery₃, hevery₄⟩

theorem resolves_forM {body : List (Lower Unit × Sketch Unit)}
    (h : ∀ p ∈ body, Resolves target known p.2 nothingLearned) :
    Resolves target known ((body.map (·.2)).forM id) nothingLearned := by
  induction body with
  | nil => exact resolves_optional (x := none) (by simp)
  | cons first rest ih =>
      exact resolves_bind (h first (by simp)) fun _ => ih fun p hp => h p (by simp [hp])

variable {key : UInt32}

theorem resolves_store (hkey : key ∈ known) :
    Resolves target known (writeStore key) nothingLearned := by
  refine resolves_atTarget (f := fun t => if t.isLegacy then _ else _) ?_
  split
  · exact resolves_bind (resolves_eval .isRef hkey) fun _ =>
      resolves_write (i := .op .setVariableField) rfl trivial
  · exact resolves_write (i := .localVariable .setLocalVariableCached key) rfl hkey

theorem resolves_branchTest {value : Sketch Unit} (hkey : key ∈ known)
    (hvalue : Resolves target known value nothingLearned) :
    Resolves target known (branchTest key value) nothingLearned :=
  resolves_bind hvalue fun _ => resolves_bind (resolves_eval .plain hkey) fun _ =>
    resolves_write (i := .op .equal) rfl trivial

theorem resolves_branching {branches : List PairedBranch} (hkey : key ∈ known)
    (hvalues : ∀ b ∈ branches, ∀ p ∈ b.value, Resolves target known p.2 nothingLearned)
    (hbodies : ∀ b ∈ branches, ∀ p ∈ b.body, Resolves target known p.2 nothingLearned) :
    Resolves target known (branching key (branches.map (·.sketched))) nothingLearned := by
  induction branches with
  | nil => exact resolves_optional (x := none) (by simp)
  | cons b rest ih =>
      have hrest := ih (fun b hb => hvalues b (by simp [hb])) (fun b hb => hbodies b (by simp [hb]))
      obtain ⟨value, body⟩ := b
      have hbody := resolves_forM (hbodies _ (List.mem_cons_self ..))
      cases value with
      | none => exact hbody
      | some value =>
          have htest := resolves_branchTest hkey (hvalues _ (List.mem_cons_self ..) value rfl)
          intro s a p s' h hknown hrun
          cases body with
          | nil =>
              obtain ⟨t, s₁, q, ht, hq, rfl⟩ := join_eq_ok.mp hrun
              exact htest.pair hrest h hknown ht hq
          | cons first others =>
              obtain ⟨t, s₁, q, s₂, r, ht, hq, hr, rfl⟩ := branching_case_eq_ok.mp hrun
              obtain ⟨h₁, hevery₁⟩ := htest h hknown ht
              obtain ⟨h₃, hevery₂, hevery₃⟩ := hbody.pair hrest h₁.consistent
                (fun hash hhash => h₁.extended.locals hash (hknown hash hhash)) hq hr
              exact ⟨h₁.trans h₃, hevery₁.mono h₃.extended, hevery₂, hevery₃⟩

/-- What follows lowering names what exists. -/
theorem resolves_of_follows {x : Lower α} {y : Sketch α} {learned : α → List UInt32}
    (h : Follows target known x y learned) : Resolves target known y learned := by
  induction h with
  | silent h => exact resolves_silent h
  | bind _ _ ihx ihf => exact resolves_bind ihx ihf
  | atTarget _ ih => exact resolves_atTarget ih
  | emit i hemittable hnames => exact resolves_write hemittable hnames
  | eval context hknown => exact resolves_eval context hknown
  | number value => exact resolves_number value
  | canonicalHash name => exact resolves_canonicalHash name
  | string text hcode =>
      exact resolves_intern (.string _) (interns_string text) (fun _ => hcode)
        fun _ => rfl
  | debugString hash hrevision =>
      exact resolves_intern .debugString (interns_debugString hash)
        (fun _ => hrevision) fun _ => rfl
  | global hash hcode hrevision =>
      exact resolves_intern (.global _) (interns_global hash)
        (fun _ => ⟨hcode, hrevision⟩) fun _ => rfl
  | call key hcode =>
      exact resolves_intern (.call _) (interns_import key) (fun _ => hcode)
        fun _ => rfl
  | functionPointer key hcode =>
      exact resolves_intern (.functionPointer _) (interns_import key) (fun _ => hcode)
        fun _ => rfl
  | skip hcode _ ih => exact resolves_skip hcode ih
  | choose hcode _ _ ihBody ihOtherwise => exact resolves_choose hcode ihBody ihOtherwise
  | loop _ _ _ _ _ _ ihStart ihTest ihBody ihStep => exact resolves_loop ihStart ihTest ihBody ihStep
  | switch _ hkey _ _ _ ihValue ihValues ihBodies =>
      intro s a p s' h hknown hrun
      obtain ⟨q, hq, rfl⟩ := wrap_eq_ok.mp hrun
      have hinside := resolves_bind ihValue fun _ => resolves_bind (resolves_store hkey)
        fun _ => resolves_branching hkey ihValues ihBodies
      obtain ⟨h₁, hevery⟩ := hinside h hknown hq
      exact ⟨h₁, hevery⟩
  | loopJump kind levels =>
      intro s a p s' h hknown hrun
      cases hrun
      exact ⟨⟨h, .refl s, by simp [nothingLearned]⟩, trivial⟩

end Pieces

end GscAssembler.Control
