import GscAssembler.Proofs.Lowering.Occurrences

/-!
# What is known while code is emitted

`Holds` is an assertion about a state of lowering: the code so far can be annotated such that some facts
are known at its end, such that what stands in it is as it should be, and such that pending jumps know
enough for where they will land.  Each single step of lowering has a rule that says what holds behind
it if something holds before it.  The annotation itself is never written down: the rules extend it.

Backward jumps are settled by marks.  A jump that waits knows at least the variables it was marked with,
and at a place that is jumped back to, at most those are known that it was marked with.
-/

namespace GscAssembler.Lowering

open Code (Annotates Chain Context Fact ForeachLocals Instruction Key LoopJump Opcode PendingJump
  ScriptFunction)

variable {α : Type}

/-! ## Assertions -/

/-- What does not change during a step of the machine. -/
structure Setting where
  /-- What code is made for. -/
  target : Target
  /-- The script's own variables. -/
  own : UInt32 → Prop
  /-- The occurrences that the instructions before the step belong to. -/
  prior : List (Option Occurrence)
  /-- The occurrence that the code of the step belongs to. -/
  source : Option Occurrence
  /-- Locals that are declared. -/
  declared : List UInt32
  /-- The variables that are still reserved for switches. -/
  switchKeys : List UInt32
  /-- The variables that are still reserved for loops over arrays. -/
  foreachKeys : List ForeachLocals

/-- Whether code is made for the legacy machine. -/
abbrev Setting.legacy (c : Setting) : Bool :=
  c.target.isLegacy

/-- The occurrence that the instruction at a position belongs to. -/
def Setting.owner (c : Setting) (p : Nat) : Option Occurrence :=
  c.prior.getD p c.source

theorem Setting.owner_of_le {c : Setting} {p : Nat} (h : c.prior.length ≤ p) :
    c.owner p = c.source := by
  simp [owner, List.getD_eq_getElem?_getD, h]

/-- Whether a variable of an occurrence holds what the occurrence stored.  A variable of its own needs
only have been stored. -/
def Occurrence.Supplied (o : Occurrence) (x : UInt32) (known : Set (Fact Occurrence)) : Prop :=
  match o with
  | .switch _ | .foreach _ => .stored x ∈ known
  | .coalesce .. | .definedAccess .. => .storedBy x o ∈ known

theorem Occurrence.Supplied.mono {o : Occurrence} {x : UInt32} {known known' : Set (Fact Occurrence)}
    (hsub : known ⊆ known') (h : o.Supplied x known) : o.Supplied x known' := by
  cases o <;> exact hsub h

/-- Whether an instruction on a local is about one of the script's own, or about a synthetic variable of
the occurrence it belongs to, which is supplied if it is read. -/
def Attributed (legacy : Bool) (own : UInt32 → Prop) (owner : Option Occurrence)
    (known : Set (Fact Occurrence)) (i : Instruction) : Prop :=
  ∀ x, i.named? = some x → own x ∨ ∃ o, owner = some o ∧ x ∈ o.variables legacy ∧
    (i.reads? = some x → o.Supplied x known)

/-- What is expected of a place in the code. -/
inductive Mark where
  /-- At a jump that waits for its target, these variables have been stored. -/
  | waits (jump : Key) (needs : List UInt32)
  /-- Behind an instruction, nothing is known but that some of these variables have been stored. -/
  | lands (after : Key) (allowed : List UInt32)

/-- Whether annotated code is as a mark expects. -/
def Mark.Meets (size : Nat) (facts : Nat → Set (Fact Occurrence)) : Mark → Prop
  | .waits jump needs => ∃ p < size, jump = .at p ∧ ∀ x ∈ needs, .stored x ∈ facts p
  | .lands after allowed => ∃ p < size, after = .at p ∧
      ∀ fact ∈ facts (p + 1), ∃ x ∈ allowed, fact = .stored x

/-- A mark is met as long as the annotation of its place stays, or less is known at the end. -/
theorem Mark.Meets.mono {size size' : Nat} {facts facts' : Nat → Set (Fact Occurrence)} {m : Mark}
    (h : m.Meets size facts) (hsize : size ≤ size') (hold : ∀ p < size, facts' p = facts p)
    (hend : facts' size ⊆ facts size) : m.Meets size' facts' := by
  cases m with
  | waits jump needs =>
      obtain ⟨p, hp, hjump, hneeds⟩ := h
      exact ⟨p, by omega, hjump, by rwa [hold p hp]⟩
  | lands after allowed =>
      obtain ⟨p, hp, hafter, hallowed⟩ := h
      refine ⟨p, by omega, hafter, fun fact hfact => hallowed fact ?_⟩
      rcases Nat.lt_or_ge (p + 1) size with hlt | hge
      · rwa [hold _ hlt] at hfact
      · obtain rfl : size = p + 1 := by omega
        exact hend hfact

theorem Mark.Meets.weaken {size : Nat} {facts : Nat → Set (Fact Occurrence)} {jump : Key}
    {needs needs' : List UInt32} (h : (Mark.waits jump needs).Meets size facts)
    (hsub : needs' ⊆ needs) : (Mark.waits jump needs').Meets size facts := by
  obtain ⟨p, hp, hjump, hneeds⟩ := h
  exact ⟨p, hp, hjump, fun x hx => hneeds x (hsub hx)⟩

/-- Whether an annotation of the code of a state is as wanted. -/
structure Annotated (c : Setting) (s : State) (scopes : List (List UInt32))
    (known : List (Fact Occurrence)) (marks : List Mark) (code : List Instruction)
    (facts : Nat → Set (Fact Occurrence)) : Prop where
  /-- It is about the code of the function. -/
  chain : s.function.chain = .ofList code
  /-- The code is not empty. -/
  nonempty : 0 < code.length
  /-- The code of the step comes last. -/
  behind : c.prior.length ≤ code.length
  /-- The script is made for the target. -/
  scriptTarget : s.script.target = c.target
  /-- So is the function. -/
  functionTarget : s.function.target = c.target
  /-- These variables are reserved for switches. -/
  switchKeys : s.function.switchKeys = c.switchKeys
  /-- These variables are reserved for loops over arrays. -/
  foreachKeys : s.function.foreachKeys = c.foreachKeys
  /-- These locals are declared. -/
  declared : ∀ x ∈ c.declared, x ∈ s.function.locals
  /-- The annotation is sound. -/
  annotates : Annotates code c.owner facts
  /-- Instructions on locals are about the right ones. -/
  attributed : ∀ p i, code[p]? = some i → Attributed c.legacy c.own (c.owner p) (facts p) i
  /-- These facts are known at the end. -/
  known : ∀ fact ∈ known, fact ∈ facts code.length
  /-- The marks are met. -/
  marks : ∀ m ∈ marks, m.Meets code.length facts
  /-- The jumps that wait in each scope know that these variables have been stored. -/
  scopes : List.Forall₂ (fun pending needs => ∀ p ∈ pending,
    (Mark.waits p.jump needs).Meets code.length facts) s.function.scopes scopes

/-- Whether each reference to a local that belongs to an occurrence is assigned to at once. -/
def AssignsAtOnce (code : List Instruction) (owner : Nat → Option Occurrence) : Prop :=
  ∀ p x o, code[p]? = some (.localVariable .evalLocalVariableRefCached x) → owner p = some o →
    code[p + 1]? = some (.op .setVariableField)

/-- What holds of a state: its code has an annotation with facts at the end and marks that are met. -/
def Holds (c : Setting) (s : State) (scopes : List (List UInt32)) (known : List (Fact Occurrence))
    (marks : List Mark) : Prop :=
  ∃ code facts, Annotated c s scopes known marks code facts ∧ AssignsAtOnce code c.owner

variable {c : Setting} {s s' : State} {scopes : List (List UInt32)}
  {known known' : List (Fact Occurrence)} {marks marks' : List Mark}

theorem Holds.mono (h : Holds c s scopes known marks) (hknown : known' ⊆ known)
    (hmarks : marks' ⊆ marks) : Holds c s scopes known' marks' := by
  obtain ⟨code, facts, h, hrefs⟩ := h
  exact ⟨code, facts, { h with
    known := fun fact hfact => h.known fact (hknown hfact)
    marks := fun m hm => h.marks m (hmarks hm) }, hrefs⟩

/-- Steps that do not touch the code keep what holds. -/
theorem Holds.congr (h : Holds c s scopes known marks)
    (hscript : s'.script.target = s.script.target)
    (hfunction : { s'.function with locals := s.function.locals } = s.function)
    (hlocals : ∀ x ∈ s.function.locals, x ∈ s'.function.locals) :
    Holds c s' scopes known marks := by
  obtain ⟨code, facts, h, hrefs⟩ := h
  have hchain : s'.function.chain = s.function.chain := congrArg (·.chain) hfunction
  have htarget : s'.function.target = s.function.target := congrArg (·.target) hfunction
  have hswitches : s'.function.switchKeys = s.function.switchKeys := congrArg (·.switchKeys) hfunction
  have hforeaches : s'.function.foreachKeys = s.function.foreachKeys :=
    congrArg (·.foreachKeys) hfunction
  have hscopes : s'.function.scopes = s.function.scopes := congrArg (·.scopes) hfunction
  refine ⟨code, facts, { h with
    chain := hchain.trans h.chain
    scriptTarget := hscript.trans h.scriptTarget
    functionTarget := htarget.trans h.functionTarget
    switchKeys := hswitches.trans h.switchKeys
    foreachKeys := hforeaches.trans h.foreachKeys
    declared := fun x hx => hlocals x (h.declared x hx)
    scopes := ?_ }, hrefs⟩
  rw [hscopes]
  exact h.scopes

/-! ## Instructions -/

section Emitting

variable {code : List Instruction} {facts : Nat → Set (Fact Occurrence)} {i : Instruction} {k : Key}

theorem emit_eq_ok (hchain : s.function.chain = .ofList code) : emit i s = .ok (k, s') ↔
    k = .at code.length ∧
      s' = { s with function := { s.function with chain := .ofList (code ++ [i]) } } := by
  simp only [emit, ScriptFunction.add, hchain, Chain.push_ofList]
  change Except.ok (_, _) = Except.ok (k, s') ↔ _
  simp only [Except.ok.injEq, Prod.mk.injEq]
  constructor <;> rintro ⟨rfl, rfl⟩ <;> exact ⟨rfl, rfl⟩

theorem after_mono {owner : Option Occurrence} {before before' : Set (Fact Occurrence)}
    (h : before ⊆ before') : Fact.after i owner before ⊆ Fact.after i owner before' := by
  unfold Fact.after
  cases i.stores? with
  | none => exact h
  | some x => exact fun fact hfact => hfact.imp_left (And.imp_left (h ·))

/-- Appending an instruction that may stand there. -/
theorem Annotated.emit (h : Annotated c s scopes known marks code facts)
    (hrun : Lowering.emit i s = .ok (k, s')) (hi : Annotates.Untargeted i)
    (hattributed : Attributed c.legacy c.own c.source {fact | fact ∈ known} i)
    (hknown : ∀ fact ∈ known', fact ∈ Fact.after i c.source {fact | fact ∈ known})
    (needs : List UInt32) (hneeds : ∀ x ∈ needs, .stored x ∈ known) :
    k = .at code.length ∧ ∃ facts',
      Annotated c s' scopes known' (.waits k needs :: marks) (code ++ [i]) facts' := by
  obtain ⟨rfl, rfl⟩ := (emit_eq_ok h.chain).mp hrun
  refine ⟨rfl, Function.update facts (code.length + 1)
    (Fact.after i (c.owner code.length) (facts code.length)), ?_⟩
  have howner : c.owner code.length = c.source := Setting.owner_of_le h.behind
  have hannotates := h.annotates.append hi
  have hknownNow : {fact | fact ∈ known} ⊆ facts code.length := h.known
  have hlength : (code ++ [i]).length = code.length + 1 := by simp
  generalize hfacts : Function.update facts (code.length + 1)
    (Fact.after i (c.owner code.length) (facts code.length)) = facts' at hannotates
  have hold (p : Nat) (hp : p ≤ code.length) : facts' p = facts p := by
    rw [← hfacts, Function.update_of_ne]
    omega
  have hmeets {m : Mark} (hm : m.Meets code.length facts) :
      m.Meets (code ++ [i]).length facts' :=
    hm.mono (by omega) (fun p hp => hold p hp.le) (hold _ le_rfl).le
  constructor
  case chain => rfl
  case nonempty => omega
  case behind => exact hlength ▸ Nat.le_succ_of_le h.behind
  case scriptTarget => exact h.scriptTarget
  case functionTarget => exact h.functionTarget
  case switchKeys => exact h.switchKeys
  case foreachKeys => exact h.foreachKeys
  case declared => exact h.declared
  case annotates => exact hannotates
  case attributed =>
      intro p j hj
      rcases Nat.lt_trichotomy p code.length with hlt | rfl | hgt
      · rw [List.getElem?_append_left hlt] at hj
        rw [hold p hlt.le]
        exact h.attributed p j hj
      · rw [List.getElem?_concat_length] at hj
        cases hj
        rw [howner, hold _ le_rfl]
        intro x hx
        refine (hattributed x hx).imp_right ?_
        rintro ⟨o, ho, hvariable, hsupplied⟩
        exact ⟨o, ho, hvariable, fun hreads => (hsupplied hreads).mono hknownNow⟩
      · rw [List.getElem?_eq_none (by omega)] at hj
        cases hj
  case known =>
      intro fact hfact
      rw [hlength, ← hfacts, Function.update_self, howner]
      exact after_mono hknownNow (hknown fact hfact)
  case marks =>
      intro m hm
      rcases List.mem_cons.mp hm with rfl | hm
      · refine ⟨code.length, by omega, rfl, fun x hx => ?_⟩
        rw [hold _ le_rfl]
        exact h.known _ (hneeds x hx)
      · exact hmeets (h.marks m hm)
  case scopes => exact h.scopes.imp fun _ _ hpending p hp => hmeets (hpending p hp)

theorem AssignsAtOnce.append {owner : Nat → Option Occurrence} (h : AssignsAtOnce code owner)
    (hi : ∀ x o, i = .localVariable .evalLocalVariableRefCached x → owner code.length ≠ some o) :
    AssignsAtOnce (code ++ [i]) owner := by
  intro p x o hp ho
  rcases Nat.lt_trichotomy p code.length with hlt | rfl | hgt
  · rw [List.getElem?_append_left hlt] at hp
    have hnext := h p x o hp ho
    rwa [List.getElem?_append_left (List.getElem?_eq_some_iff.mp hnext).1]
  · rw [List.getElem?_concat_length] at hp
    exact absurd ho (hi x o (Option.some.inj hp))
  · rw [List.getElem?_eq_none (by simp; omega)] at hp
    cases hp

theorem AssignsAtOnce.append_assign {owner : Nat → Option Occurrence} (h : AssignsAtOnce code owner) :
    AssignsAtOnce (code ++ [i] ++ [.op .setVariableField]) owner := by
  intro p x o hp ho
  rcases Nat.lt_trichotomy p code.length with hlt | rfl | hgt
  · rw [List.append_assoc, List.getElem?_append_left hlt] at hp
    have hnext := h p x o hp ho
    rwa [List.append_assoc, List.getElem?_append_left (List.getElem?_eq_some_iff.mp hnext).1]
  · simp
  · have hlast : p = (code ++ [i]).length := by
      have := (List.getElem?_eq_some_iff.mp hp).1
      simp only [List.length_append, List.length_singleton] at this ⊢
      omega
    rw [hlast, List.getElem?_concat_length] at hp
    cases hp

theorem AssignsAtOnce.retarget {owner : Nat → Option Occurrence} (h : AssignsAtOnce code owner)
    (p : Nat) : AssignsAtOnce (code.modify p (Instruction.retarget k)) owner := by
  intro r x o hr ho
  have hr : code[r]? = some (.localVariable .evalLocalVariableRefCached x) := by
    rcases Code.getElem?_retarget hr with hr | ⟨j, hj, hretarget, -⟩
    · exact hr
    · cases j <;> cases hretarget
      exact hj
  have hnext := h r x o hr ho
  rw [List.getElem?_modify, hnext]
  split <;> rfl

/-- Whether a variable may be stored: it is one of the script's own, or of the occurrence. -/
def Setting.Names (c : Setting) (x : UInt32) : Prop :=
  c.own x ∨ ∃ o, c.source = some o ∧ x ∈ o.variables c.legacy

/-- Whether a variable may be read: if it is of the occurrence, it is supplied. -/
def Setting.Reads (c : Setting) (known : List (Fact Occurrence)) (x : UInt32) : Prop :=
  c.own x ∨ ∃ o, c.source = some o ∧ x ∈ o.variables c.legacy ∧
    o.Supplied x {fact | fact ∈ known}

/-- Appending an instruction that is not about a local. -/
theorem Holds.emit (h : Holds c s scopes known marks) (hrun : Lowering.emit i s = .ok (k, s'))
    (hnamed : i.named? = none) (hi : Annotates.Untargeted i) (needs : List UInt32)
    (hneeds : ∀ x ∈ needs, .stored x ∈ known) :
    Holds c s' scopes known (.waits k needs :: marks) ∧ k = s'.function.lastKey := by
  obtain ⟨code, facts, h, hrefs⟩ := h
  have hkept (fact : Fact Occurrence) (hfact : fact ∈ known) :
      fact ∈ Fact.after i c.source {fact | fact ∈ known} := by
    rw [Fact.after_of_stores? (Instruction.stores?_of_named? hnamed)]
    exact hfact
  obtain ⟨hk, facts', h'⟩ := h.emit hrun hi (fun x hx => absurd hx (by rw [hnamed]; exact nofun))
    hkept needs hneeds
  refine ⟨⟨_, facts', h', hrefs.append fun x o hi => ?_⟩, ?_⟩
  · rw [hi] at hnamed
    cases hnamed
  · rw [ScriptFunction.lastKey, h'.chain, Chain.last_ofList_getD h'.nonempty, hk]
    simp

/-- Appending an instruction that reads a local. -/
theorem Holds.read (h : Holds c s scopes known marks) {op : Opcode} {x : UInt32}
    (hrun : Lowering.emit (.localVariable op x) s = .ok (k, s')) (hop : op.assigns = false)
    (hx : c.Reads known x) : Holds c s' scopes known marks := by
  obtain ⟨code, facts, h, hrefs⟩ := h
  have hkept (fact : Fact Occurrence) (hfact : fact ∈ known) :
      fact ∈ Fact.after (.localVariable op x) c.source {fact | fact ∈ known} := by
    rw [Fact.after_of_stores? (by simp [Instruction.stores?, hop])]
    exact hfact
  have hattributed : Attributed c.legacy c.own c.source {fact | fact ∈ known}
      (.localVariable op x) := by
    intro y hy
    cases hy
    refine hx.imp_right ?_
    rintro ⟨o, ho, hvariable, hsupplied⟩
    exact ⟨o, ho, hvariable, fun _ => hsupplied⟩
  obtain ⟨-, facts', h'⟩ := h.emit hrun (fun _ _ hi => by cases hi) hattributed hkept [] (by simp)
  refine ⟨_, facts', { h' with marks := fun m hm => h'.marks m (List.mem_cons_of_mem _ hm) },
    hrefs.append fun y o hy => ?_⟩
  cases hy
  cases hop

/-- What is known behind a store. -/
def Setting.stored (c : Setting) (x : UInt32) (known : List (Fact Occurrence)) :
    List (Fact Occurrence) :=
  .stored x :: (c.source.map (Fact.storedBy x)).toList ++ known

/-- Appending an instruction that stores a local. -/
theorem Annotated.store (h : Annotated c s scopes known marks code facts) {op : Opcode} {x : UInt32}
    (hrun : Lowering.emit (.localVariable op x) s = .ok (k, s')) (hop : op.assigns = true)
    (hx : c.Names x) (hother : ∀ o, .storedBy x o ∉ known) :
    ∃ facts', Annotated c s' scopes (c.stored x known) marks (code ++ [.localVariable op x]) facts' := by
  have hstores : (Instruction.localVariable op x).stores? = some x := by
    simp [Instruction.stores?, hop]
  have hnew (fact : Fact Occurrence) (hfact : fact ∈ c.stored x known) :
      fact ∈ Fact.after (.localVariable op x) c.source {fact | fact ∈ known} := by
    rw [Fact.after, hstores]
    simp only [Setting.stored, List.cons_append, List.mem_cons, List.mem_append, Option.mem_toList,
      Option.map_eq_some_iff] at hfact
    rcases hfact with rfl | ⟨o, ho, rfl⟩ | hfact
    · exact .inr (.inl rfl)
    · exact .inr (.inr ⟨o, ho, rfl⟩)
    · exact .inl ⟨hfact, fun o ho => hother o (ho ▸ hfact)⟩
  have hattributed : Attributed c.legacy c.own c.source {fact | fact ∈ known}
      (.localVariable op x) := by
    intro y hy
    cases hy
    refine hx.imp_right ?_
    rintro ⟨o, ho, hvariable⟩
    refine ⟨o, ho, hvariable, fun hreads => ?_⟩
    simp [Instruction.reads?, hop] at hreads
  obtain ⟨-, facts', h'⟩ := h.emit hrun (fun _ _ hi => by cases hi) hattributed hnew [] (by simp)
  exact ⟨facts', { h' with marks := fun m hm => h'.marks m (List.mem_cons_of_mem _ hm) }⟩

/-- Storing a local by a single instruction that is no reference. -/
theorem Holds.store (h : Holds c s scopes known marks) {op : Opcode} {x : UInt32}
    (hrun : Lowering.emit (.localVariable op x) s = .ok (k, s')) (hop : op.assigns = true)
    (hsingle : op ≠ .evalLocalVariableRefCached ∨ c.source = none) (hx : c.Names x)
    (hother : ∀ o, .storedBy x o ∉ known) : Holds c s' scopes (c.stored x known) marks := by
  obtain ⟨code, facts, h, hrefs⟩ := h
  obtain ⟨facts', h'⟩ := h.store hrun hop hx hother
  refine ⟨_, facts', h', hrefs.append fun y o hy ho => ?_⟩
  rw [Setting.owner_of_le h.behind] at ho
  cases hy
  rcases hsingle with hne | hnone
  · exact hne rfl
  · cases hnone.symm.trans ho

end Emitting

/-! ## Operations -/

section Operations

variable {x : UInt32} {k : Key}

theorem discard_eq_ok {y : Lower α} {u : Unit} :
    discard y s = .ok (u, s') ↔ ∃ a, y s = .ok (a, s') := by
  change (y s).bind (fun r => .ok ((), r.2)) = _ ↔ _
  simp only [Control.except_bind_eq_ok, Except.ok.injEq, Prod.mk.injEq, Prod.exists]
  constructor
  · rintro ⟨a, t, hy, -, rfl⟩
    exact ⟨a, hy⟩
  · rintro ⟨a, hy⟩
    exact ⟨a, s', hy, trivial, rfl⟩

theorem Holds.emitPlain {i : Instruction} (h : Holds c s scopes known marks)
    (hrun : discard (Lowering.emit i) s = .ok ((), s')) (hnamed : i.named? = none)
    (hi : Annotates.Untargeted i) : Holds c s' scopes known marks := by
  obtain ⟨k, hrun⟩ := discard_eq_ok.mp hrun
  exact (h.emit hrun hnamed hi [] nofun).1.mono (List.Subset.refl _) (List.subset_cons_self _ _)

theorem Holds.emitOp {op : Opcode} (h : Holds c s scopes known marks)
    (hrun : Lowering.emitOp op s = .ok ((), s')) : Holds c s' scopes known marks :=
  h.emitPlain hrun rfl fun _ _ => nofun

theorem Holds.emitJump {op : Opcode} (h : Holds c s scopes known marks) (needs : List UInt32)
    (hneeds : ∀ x ∈ needs, .stored x ∈ known) (hrun : Lowering.emitJump op s = .ok (k, s')) :
    Holds c s' scopes known (.waits k needs :: marks) ∧ k = s'.function.lastKey :=
  h.emit hrun rfl (fun _ _ => nofun) needs hneeds

theorem Holds.emitEval (h : Holds c s scopes known marks) (hx : c.Reads known x)
    (hrun : Lowering.emitEval x .plain s = .ok ((), s')) : Holds c s' scopes known marks := by
  have hop : (ScriptFunction.evalOpcode s.function.target .plain).assigns = false := by
    have hwaits : Context.plain.has .waittill = false := by decide
    have href : Context.plain.has .isRef = false := by decide
    simp only [ScriptFunction.evalOpcode, hwaits, href, Bool.and_false]
    rfl
  obtain ⟨k, hemit⟩ := discard_eq_ok.mp hrun
  have hemit : Lowering.emit (.localVariable (ScriptFunction.evalOpcode s.function.target .plain) x) s =
      .ok (k, s') := hemit
  exact h.read hemit hop hx

theorem Holds.legacy_eq (h : Holds c s scopes known marks) :
    s.script.target.isLegacy = c.legacy := by
  obtain ⟨_, _, h, -⟩ := h
  rw [h.scriptTarget]

theorem Holds.emitIsDefined (h : Holds c s scopes known marks) (hx : c.Reads known x)
    (hrun : Lowering.emitIsDefined x s = .ok ((), s')) : Holds c s' scopes known marks := by
  have hrun : (if s.script.target.isLegacy then
      (do Lowering.emitEval x .plain; Lowering.emitOp .isDefined)
      else discard (Lowering.emit (.localVariable .evalLocalVariableDefined x))) s =
        .ok ((), s') := hrun
  split at hrun
  · obtain ⟨_, s₁, heval, hop⟩ := Control.exists_of_bind_eq_ok hrun
    exact (h.emitEval hx heval).emitOp hop
  · obtain ⟨k, hemit⟩ := discard_eq_ok.mp hrun
    exact h.read hemit rfl hx

/-- Storing a local, by an instruction of its own or by assigning to a reference. -/
theorem Holds.emitStore (h : Holds c s scopes known marks) (hx : c.Names x)
    (hother : ∀ o, .storedBy x o ∉ known) (hrun : Lowering.emitStore x s = .ok ((), s')) :
    Holds c s' scopes (c.stored x known) marks := by
  have hrun : (if s.script.target.isLegacy then
      (do Lowering.emitEval x .isRef; Lowering.emitOp .setVariableField)
      else discard (Lowering.emit (.localVariable .setLocalVariableCached x))) s =
        .ok ((), s') := hrun
  split at hrun
  · obtain ⟨_, s₁, heval, hop⟩ := Control.exists_of_bind_eq_ok hrun
    obtain ⟨k, hemit⟩ := discard_eq_ok.mp heval
    have hemit : Lowering.emit (.localVariable
        (ScriptFunction.evalOpcode s.function.target .isRef) x) s = .ok (k, s₁) := hemit
    have hwaits : Context.isRef.has .waittill = false := by decide
    have href : Context.isRef.has .isRef = true := by decide
    have hcode : ScriptFunction.evalOpcode s.function.target .isRef =
        .evalLocalVariableRefCached := by
      simp only [ScriptFunction.evalOpcode, hwaits, href, Bool.and_false]
      rfl
    rw [hcode] at hemit
    obtain ⟨code, facts, h, hrefs⟩ := h
    obtain ⟨facts₁, h₁⟩ := h.store hemit rfl hx hother
    obtain ⟨k₂, hop⟩ := discard_eq_ok.mp hop
    obtain ⟨-, facts₂, h₂⟩ := h₁.emit hop (fun _ _ hi => by cases hi)
      (fun _ hx => by cases hx) (fun fact hfact => hfact) [] (by simp)
    exact ⟨_, facts₂, { h₂ with marks := fun m hm => h₂.marks m (List.mem_cons_of_mem _ hm) },
      hrefs.append_assign⟩
  · obtain ⟨k, hemit⟩ := discard_eq_ok.mp hrun
    exact h.store hemit rfl (.inl (by decide)) hx hother

/-- The evaluation of one of the script's own variables, for its value or as a reference. -/
theorem Holds.emitOwn {needs : List UInt32} {context : Context}
    (h : Holds c s scopes (needs.map .stored) marks) (hsource : c.source = none) (hx : c.own x)
    (hrun : Lowering.emitEval x context s = .ok ((), s')) :
    Holds c s' scopes (needs.map .stored) marks := by
  obtain ⟨k, hemit⟩ := discard_eq_ok.mp hrun
  have hemit : Lowering.emit (.localVariable
      (ScriptFunction.evalOpcode s.function.target context) x) s = .ok (k, s') := hemit
  cases hop : (ScriptFunction.evalOpcode s.function.target context).assigns with
  | false => exact h.read hemit hop (.inl hx)
  | true =>
      refine (h.store hemit hop (.inr hsource) (.inl hx) (by simp)).mono ?_ (List.Subset.refl _)
      exact fun fact hfact => List.mem_cons_of_mem _ (List.mem_append_right _ hfact)

end Operations

/-! ## Jumps -/

section Jumps

variable {code : List Instruction} {facts : Nat → Set (Fact Occurrence)} {jump after : Key}
  {needs allowed : List UInt32}

theorem Annotated.lastKey_eq (h : Annotated c s scopes known marks code facts) :
    s.function.lastKey = .at (code.length - 1) := by
  rw [ScriptFunction.lastKey, h.chain, Chain.last_ofList_getD h.nonempty]

theorem lastKey_setTarget (f : ScriptFunction) (jump after : Key) :
    (f.setTarget jump after).lastKey = f.lastKey := by
  simp only [ScriptFunction.lastKey, ScriptFunction.setTarget, Chain.modify, Chain.modifySlot]
  split <;> rfl

/-- The end of the code may be marked as a place to land at, if all else that is known there is
forgotten. -/
theorem Holds.mark (h : Holds c s scopes known marks) {kept : List UInt32}
    (hkept : ∀ x ∈ kept, .stored x ∈ known) (hallowed : kept ⊆ allowed) :
    Holds c s scopes (kept.map .stored) (.lands s.function.lastKey allowed :: marks) := by
  obtain ⟨code, facts, h, hrefs⟩ := h
  let F : Set (Fact Occurrence) := {fact | ∃ x ∈ kept, fact = .stored x}
  have hF : F ⊆ facts code.length := by
    rintro fact ⟨x, hx, rfl⟩
    exact h.known _ (hkept x hx)
  have hold (p : Nat) (hp : p < code.length) : Function.update facts code.length F p = facts p := by
    rw [Function.update_of_ne]
    omega
  have hend : Function.update facts code.length F code.length = F := Function.update_self ..
  have hannotates := h.annotates.forget h.nonempty hF
  generalize Function.update facts code.length F = facts' at hannotates hend hold
  have hmeets {m : Mark} (hm : m.Meets code.length facts) : m.Meets code.length facts' :=
    hm.mono le_rfl hold (hend ▸ hF)
  refine ⟨code, facts', { h with
    annotates := hannotates
    attributed := fun p i hi => ?_
    known := fun fact hfact => ?_
    marks := fun m hm => ?_
    scopes := h.scopes.imp fun _ _ hpending p hp => hmeets (hpending p hp) }, hrefs⟩
  · rw [hold p (List.getElem?_eq_some_iff.mp hi).1]
    exact h.attributed p i hi
  · obtain ⟨x, hx, rfl⟩ := List.mem_map.mp hfact
    rw [hend]
    exact ⟨x, hx, rfl⟩
  · rcases List.mem_cons.mp hm with rfl | hm
    · have hlast : code.length - 1 + 1 = code.length := Nat.succ_pred_eq_of_pos h.nonempty
      refine ⟨code.length - 1, by omega, h.lastKey_eq, ?_⟩
      rw [hlast, hend]
      rintro fact ⟨x, hx, rfl⟩
      exact ⟨x, hallowed hx, rfl⟩
    · exact hmeets (h.marks m hm)

/-- A jump may land at a marked place if it knows all that may be known there. -/
theorem Holds.setTarget (h : Holds c s scopes known marks) (hjump : .waits jump needs ∈ marks)
    (hafter : .lands after allowed ∈ marks) (hsub : allowed ⊆ needs)
    (hrun : Lowering.setTarget jump after s = .ok ((), s')) : Holds c s' scopes known marks := by
  cases hrun
  obtain ⟨code, facts, h, hrefs⟩ := h
  obtain ⟨p, hp, rfl, hneeds⟩ := h.marks _ hjump
  obtain ⟨q, hq, rfl, hallowed⟩ := h.marks _ hafter
  have hfacts : facts (q + 1) ⊆ facts p := by
    intro fact hfact
    obtain ⟨x, hx, rfl⟩ := hallowed fact hfact
    exact hneeds x (hsub hx)
  have hlength : (code.modify p (Instruction.retarget (.at q))).length = code.length :=
    List.length_modify ..
  refine ⟨code.modify p (Instruction.retarget (.at q)), facts, ?_, hrefs.retarget p⟩
  constructor
  case chain =>
      change s.function.chain.modify (.at p) _ = _
      rw [h.chain, Chain.modify_ofList]
  case nonempty => exact hlength ▸ h.nonempty
  case behind => exact hlength ▸ h.behind
  case scriptTarget => exact h.scriptTarget
  case functionTarget => exact h.functionTarget
  case switchKeys => exact h.switchKeys
  case foreachKeys => exact h.foreachKeys
  case declared => exact h.declared
  case annotates => exact h.annotates.retarget hq hfacts
  case attributed =>
      intro r i hi
      rcases Code.getElem?_retarget hi with hi | ⟨j, hj, rfl, -⟩
      · exact h.attributed r i hi
      · cases j with
        | jump op old => exact fun _ => nofun
        | _ => exact h.attributed r _ hj
  case known => exact hlength ▸ h.known
  case marks => exact hlength ▸ h.marks
  case scopes => exact hlength ▸ h.scopes

/-- A jump lands at the end of the code, where only what it knows stays known. -/
theorem Holds.setTarget_end (h : Holds c s scopes known marks) (hjump : .waits jump needs ∈ marks)
    (hneeds : ∀ x ∈ needs, .stored x ∈ known) (hafter : after = s.function.lastKey)
    (hrun : Lowering.setTarget jump after s = .ok ((), s')) :
    Holds c s' scopes (needs.map .stored) marks := by
  have hmarked := h.mark hneeds (List.Subset.refl needs)
  rw [← hafter] at hmarked
  exact (hmarked.setTarget (List.mem_cons_of_mem _ hjump) List.mem_cons_self (List.Subset.refl _)
    hrun).mono (List.Subset.refl _) (List.subset_cons_self _ _)

theorem Holds.land (h : Holds c s scopes known marks) (hjump : .waits jump needs ∈ marks)
    (hneeds : ∀ x ∈ needs, .stored x ∈ known) (hrun : Lowering.land jump s = .ok ((), s')) :
    Holds c s' scopes (needs.map .stored) marks :=
  h.setTarget_end hjump hneeds rfl hrun

theorem Holds.landAll {jumps : List Key} (hjumps : ∀ jump ∈ jumps, .waits jump needs ∈ marks) :
    ∀ {s : State}, Holds c s scopes (needs.map .stored) marks →
      Lowering.landAll jumps s = .ok ((), s') → Holds c s' scopes (needs.map .stored) marks := by
  induction jumps with
  | nil =>
      intro s h hrun
      cases hrun
      exact h
  | cons jump rest ih =>
      intro s h hrun
      obtain ⟨_, s₁, hland, hrest⟩ := Control.exists_of_bind_eq_ok hrun
      have hlanded := h.land (hjumps jump List.mem_cons_self)
        (fun x hx => List.mem_map_of_mem hx) hland
      exact ih (fun j hj => hjumps j (List.mem_cons_of_mem _ hj)) hlanded hrest

end Jumps

/-! ## Scopes -/

section Scopes

variable {needs allowed : List UInt32} {header : Option Key} {footer : Key}

theorem Holds.enterLoop (h : Holds c s scopes known marks) (needs : List UInt32)
    (hrun : Lowering.enterLoop s = .ok ((), s')) : Holds c s' (needs :: scopes) known marks := by
  cases hrun
  obtain ⟨code, facts, h, hrefs⟩ := h
  exact ⟨code, facts, { h with scopes := .cons nofun h.scopes }, hrefs⟩

theorem forall₂_modify {β γ : Type} {R : β → γ → Prop} {f : β → β} {l : List β} {l' : List γ}
    (h : List.Forall₂ R l l') (hf : ∀ a b, b ∈ l' → R a b → R (f a) b) :
    ∀ index, List.Forall₂ R (l.modify index f) l' := by
  induction h with
  | nil =>
      intro index
      rw [List.modify_nil]
      exact .nil
  | cons hfirst hrest ih =>
      intro index
      cases index with
      | zero => exact .cons (hf _ _ List.mem_cons_self hfirst) hrest
      | succ index =>
          exact .cons hfirst (ih (fun a b hb => hf a b (List.mem_cons_of_mem _ hb)) index)

/-- A jump out of loops waits in the scope it leaves, and knows all that is known where it stands. -/
theorem Holds.loopJump {kind : LoopJump} {levels : Nat} {k : Key}
    (h : Holds c s scopes known marks)
    (hscopes : ∀ needs ∈ scopes, ∀ x ∈ needs, .stored x ∈ known)
    (hrun : updateFunction (fun f => f.addLoopJump kind levels) s = .ok (k, s')) :
    Holds c s' scopes known marks := by
  obtain ⟨f, hjump, rfl⟩ := updateFunction_eq_ok.mp hrun
  simp only [ScriptFunction.addLoopJump] at hjump
  split at hjump
  · cases hjump
  · -- the jump is appended like any other, and then noted in its scope
    cases hjump
    have hemit : Lowering.emitJump .jump s = .ok ((s.function.addJump .jump).1,
      { s with function := (s.function.addJump .jump).2 }) := rfl
    obtain ⟨⟨code, facts, h, hrefs⟩, -⟩ := h.emitJump scopes.flatten
      (fun x hx => by
        obtain ⟨needs, hneeds, hx⟩ := List.mem_flatten.mp hx
        exact hscopes needs hneeds x hx) hemit
    refine ⟨code, facts, { h with
      marks := fun m hm => h.marks m (List.mem_cons_of_mem _ hm)
      scopes := forall₂_modify h.scopes (fun pending needs hneeds hpending p hp => ?_) _ }, hrefs⟩
    rcases List.mem_append.mp hp with hp | hp
    · exact hpending p hp
    · obtain rfl := List.mem_singleton.mp hp
      exact (h.marks _ List.mem_cons_self).weaken fun x hx =>
        List.mem_flatten.mpr ⟨needs, hneeds, hx⟩

/-- Settling the jumps of a closed scope, which know all that may be known where they land, and where the
jumps of the scope around it land. -/
theorem Holds.settle {pending : List PendingJump} {f : ScriptFunction} {error : Option CompileError}
    {f' : ScriptFunction} (hpending : ∀ p ∈ pending, .waits p.jump needs ∈ marks)
    (hfooter : ∃ allowed, .lands footer allowed ∈ marks ∧ allowed ⊆ needs)
    (hheader : ∀ k ∈ header, ∃ allowed, .lands k allowed ∈ marks ∧ allowed ⊆ needs)
    (houter : ∀ outer ∈ scopes.head?, outer ⊆ needs)
    (h : Holds c { s with function := f } scopes known marks)
    (hsettle : ScriptFunction.settle header footer pending f = (error, f')) :
    error = none → Holds c { s with function := f' } scopes known marks := by
  fun_induction ScriptFunction.settle header footer pending f with
  | case1 header f =>
      intro _
      cases hsettle
      exact h
  | case2 header jump rest f ih =>
      obtain ⟨allowed, hlands, hsub⟩ := hfooter
      exact ih (fun p hp => hpending p (List.mem_cons_of_mem _ hp)) hheader
        (h.setTarget (hpending _ List.mem_cons_self) hlands hsub rfl) hsettle
  | case3 jump rest f header ih =>
      obtain ⟨allowed, hlands, hsub⟩ := hheader header rfl
      exact ih (fun p hp => hpending p (List.mem_cons_of_mem _ hp)) hheader
        (h.setTarget (hpending _ List.mem_cons_self) hlands hsub rfl) hsettle
  | case4 jump rest f outer others hothers ih =>
      -- the jump goes on to wait in the scope around this one
      refine ih (fun p hp => hpending p (List.mem_cons_of_mem _ hp)) hheader ?_ hsettle
      obtain ⟨code, facts, h, hrefs⟩ := h
      have hscopes := h.scopes
      change List.Forall₂ _ f.scopes scopes at hscopes
      rw [hothers] at hscopes
      cases hscopes with
      | cons hfirst hrest =>
          refine ⟨code, facts, { h with scopes := .cons (fun p hp => ?_) hrest }, hrefs⟩
          rcases List.mem_append.mp hp with hp | hp
          · exact hfirst p hp
          · obtain rfl := List.mem_singleton.mp hp
            exact (h.marks _ (hpending _ List.mem_cons_self)).weaken (houter _ rfl)
  | case5 jump rest f hothers =>
      intro herror
      cases hsettle
      cases herror

/-- Closing the innermost scope. -/
theorem Holds.exitLoop (h : Holds c s (needs :: scopes) known marks)
    (hfooter : ∃ allowed, .lands footer allowed ∈ marks ∧ allowed ⊆ needs)
    (hheader : ∀ k ∈ header, ∃ allowed, .lands k allowed ∈ marks ∧ allowed ⊆ needs)
    (houter : ∀ outer ∈ scopes.head?, outer ⊆ needs)
    (hrun : Lowering.exitLoop header footer s = .ok ((), s')) : Holds c s' scopes known marks := by
  obtain ⟨code, facts, h, hrefs⟩ := h
  have hscopes := h.scopes
  cases hpending : s.function.scopes with
  | nil =>
      rw [hpending] at hscopes
      cases hscopes
  | cons pending others =>
      rw [hpending] at hscopes
      obtain ⟨hfirst, hrest⟩ := List.forall₂_cons.mp hscopes
      obtain ⟨f, hsettle, rfl⟩ := Control.exists_settle_of_exitLoop hpending hrun
      -- the jumps that waited in the scope are marked until they are settled
      have hopen : Holds c { s with function := { s.function with scopes := others } } scopes known
          (pending.map (fun p => .waits p.jump needs) ++ marks) := by
        refine ⟨code, facts, { h with scopes := hrest, marks := fun m hm => ?_ }, hrefs⟩
        rcases List.mem_append.mp hm with hm | hm
        · obtain ⟨p, hp, rfl⟩ := List.mem_map.mp hm
          exact hfirst p hp
        · exact h.marks m hm
      have hmarks : marks ⊆ pending.map (fun p => .waits p.jump needs) ++ marks :=
        List.subset_append_right _ _
      refine Holds.mono (hopen.settle (fun p hp => List.mem_append_left _ (List.mem_map_of_mem hp))
        ?_ ?_ houter hsettle rfl) (List.Subset.refl _) hmarks
      · obtain ⟨allowed, hlands, hsub⟩ := hfooter
        exact ⟨allowed, hmarks hlands, hsub⟩
      · intro k hk
        obtain ⟨allowed, hlands, hsub⟩ := hheader k hk
        exact ⟨allowed, hmarks hlands, hsub⟩

/-- Jumping back to the start of a loop and closing it. -/
theorem Holds.closeLoop {inside below : List UInt32} {start continueAt : Key} {exit : Option Key}
    (h : Holds c s (inside :: scopes) known marks)
    (hstart : .lands start allowed ∈ marks) (hallowed : ∀ x ∈ allowed, .stored x ∈ known)
    (hexit : ∀ e ∈ exit, .waits e below ∈ marks) (hcontinue : .lands continueAt inside ∈ marks)
    (hinside : below ⊆ inside) (hbelow : ∀ x ∈ below, .stored x ∈ known)
    (houter : ∀ outer ∈ scopes.head?, outer ⊆ inside)
    (hrun : Lowering.closeLoop start exit continueAt s = .ok ((), s')) :
    Holds c s' scopes (below.map .stored) marks := by
  obtain ⟨back, s₁, hjump, hrun⟩ := Control.exists_of_bind_eq_ok hrun
  obtain ⟨_, s₂, hback, hrun⟩ := Control.exists_of_bind_eq_ok hrun
  obtain ⟨h₁, rfl⟩ := h.emitJump allowed hallowed hjump
  have h₂ := h₁.setTarget List.mem_cons_self (List.mem_cons_of_mem _ hstart) (List.Subset.refl _)
    hback
  -- all jumps that leave the loop land behind the one that goes back
  have hend := h₂.mark hbelow (List.Subset.refl below)
  cases hback
  rw [lastKey_setTarget] at hend
  have hfooter : ∃ allowed', .lands s₁.function.lastKey allowed' ∈
      .lands s₁.function.lastKey below :: .waits s₁.function.lastKey allowed :: marks ∧
      allowed' ⊆ inside := ⟨below, List.mem_cons_self, hinside⟩
  have hheader : ∀ k ∈ some continueAt, ∃ allowed', .lands k allowed' ∈
      .lands s₁.function.lastKey below :: .waits s₁.function.lastKey allowed :: marks ∧
      allowed' ⊆ inside := by
    rintro k ⟨rfl⟩
    exact ⟨inside, by simp [hcontinue], List.Subset.refl _⟩
  have hdrop : marks ⊆
      .lands s₁.function.lastKey below :: .waits s₁.function.lastKey allowed :: marks :=
    fun m hm => List.mem_cons_of_mem _ (List.mem_cons_of_mem _ hm)
  cases exit with
  | none => exact (hend.exitLoop hfooter hheader houter hrun).mono (List.Subset.refl _) hdrop
  | some exit =>
      obtain ⟨_, s₃, hleave, hclose⟩ := Control.exists_of_bind_eq_ok hrun
      have hleft := hend.setTarget (hdrop (hexit exit rfl)) List.mem_cons_self (List.Subset.refl _)
        hleave
      exact (hleft.exitLoop hfooter hheader houter hclose).mono (List.Subset.refl _) hdrop

/-- Closing a switch. -/
theorem Holds.closeSwitch {inside : List UInt32} (h : Holds c s (inside :: scopes) known marks)
    (hinside : ∀ x ∈ inside, .stored x ∈ known) (houter : ∀ outer ∈ scopes.head?, outer ⊆ inside)
    (hrun : Lowering.closeSwitch s = .ok ((), s')) :
    Holds c s' scopes (inside.map .stored) marks := by
  have hend := h.mark hinside (List.Subset.refl inside)
  exact (hend.exitLoop ⟨inside, List.mem_cons_self, List.Subset.refl _⟩
    (fun _ hk => by cases hk) houter hrun).mono
    (List.Subset.refl _) (List.subset_cons_self _ _)

end Scopes

end GscAssembler.Lowering
