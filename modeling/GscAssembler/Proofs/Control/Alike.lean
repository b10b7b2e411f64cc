import GscAssembler.Proofs.Control.Lowered

/-!
# Lowering sees nothing of its surroundings

Whatever other functions have left in the tables and among the names of a script, a function is
lowered in the same way.  Two states are `Alike` if they agree in all that lowering looks at.  From
such states the same piece of lowering leads to such states again, and to programs that are equal but
for the positions of what they use in the tables (`mirrored_of_follows`).  So their code has the same
instructions, which use the same values (`Instruction.Same`).
-/

namespace GscAssembler.Reference

/-- Whether two entries of a kind, each in its own tables, have the same value. -/
def Tables.SameValue (t u : Tables) (kind : TableKind) (entry other : Nat) : Prop :=
  ∃ value, t.value? kind entry = some value ∧ u.value? kind other = some value

theorem Tables.SameValue.mono {t t' u u' : Tables} (ht : t.Extends t') (hu : u.Extends u')
    {kind : TableKind} {entry other : Nat} (h : t.SameValue u kind entry other) :
    t'.SameValue u' kind entry other := by
  obtain ⟨value, hentry, hother⟩ := h
  exact ⟨value, ht _ _ _ hentry, hu _ _ _ hother⟩

end GscAssembler.Reference

namespace GscAssembler.Code

open Reference (Tables)

/-- Whether two instructions are equal, except that what they use may have different positions, each
in its own tables. -/
inductive Instruction.Same (t u : Tables) : Instruction → Instruction → Prop where
  | plain {i : Instruction} (h : i.uses? = none) : Same t u i i
  | string {code : Opcode} {entry other : Nat} (h : t.SameValue u .strings entry other) :
      Same t u (.string code entry) (.string code other)
  | debugString {entry other : Nat} (h : t.SameValue u .debug entry other) :
      Same t u (.debugString entry) (.debugString other)
  | call {code : Opcode} {entry other : Nat} (h : t.SameValue u .imports entry other) :
      Same t u (.call code entry) (.call code other)
  | functionPointer {code : Opcode} {entry other : Nat} (h : t.SameValue u .imports entry other) :
      Same t u (.functionPointer code entry) (.functionPointer code other)
  | global {code : Opcode} {entry other : Nat} (h : t.SameValue u .globals entry other) :
      Same t u (.global code entry) (.global code other)

theorem Instruction.Same.mono {t t' u u' : Tables} (ht : t.Extends t') (hu : u.Extends u')
    {i j : Instruction} (h : Same t u i j) : Same t' u' i j := by
  cases h with
  | plain h => exact .plain h
  | string h => exact .string (h.mono ht hu)
  | debugString h => exact .debugString (h.mono ht hu)
  | call h => exact .call (h.mono ht hu)
  | functionPointer h => exact .functionPointer (h.mono ht hu)
  | global h => exact .global (h.mono ht hu)

end GscAssembler.Code

namespace GscAssembler.Control

open Code (Context ForeachLocals Instruction LoopJump Opcode ScriptFunction)
open Lowering
open Reference (TableKind Tables TableValue)
open SyntaxTree (Node)

variable {α β : Type}

/-! ## Programs that differ in their instructions only -/

namespace Program

/-- Whether two programs have the same shape, and their instructions are related. -/
inductive Related (R : Instruction → Instruction → Prop) : Program → Program → Prop where
  | nothing : Related R .nothing .nothing
  | instruction {i j : Instruction} (h : R i j) : Related R (.instruction i) (.instruction j)
  | sequence {p p' q q' : Program} (hp : Related R p p') (hq : Related R q q') :
      Related R (.sequence p q) (.sequence p' q')
  | skip (code : Opcode) {p p' : Program} (hp : Related R p p') :
      Related R (.skip code p) (.skip code p')
  | choose (code : Opcode) {p p' q q' : Program} (hp : Related R p p') (hq : Related R q q') :
      Related R (.choose code p q) (.choose code p' q')
  | loop (tested stepped : Bool) {start start' test test' body body' step step' : Program}
      (hstart : Related R start start') (htest : Related R test test') (hbody : Related R body body')
      (hstep : Related R step step') :
      Related R (.loop start test body step tested stepped)
        (.loop start' test' body' step' tested stepped)
  | switch {p p' : Program} (hp : Related R p p') : Related R (.switch p) (.switch p')
  | case {test test' body body' rest rest' : Program} (htest : Related R test test')
      (hbody : Related R body body') (hrest : Related R rest rest') :
      Related R (.case test body rest) (.case test' body' rest')
  | emptyCase {test test' rest rest' : Program} (htest : Related R test test')
      (hrest : Related R rest rest') : Related R (.emptyCase test rest) (.emptyCase test' rest')
  | loopJump (kind : LoopJump) (outward : Nat) :
      Related R (.loopJump kind outward) (.loopJump kind outward)

variable {R S : Instruction → Instruction → Prop} {p q : Program}

theorem Related.mono (hRS : ∀ i j, R i j → S i j) (h : p.Related R q) : p.Related S q := by
  induction h with
  | nothing => exact .nothing
  | instruction h => exact .instruction (hRS _ _ h)
  | sequence _ _ ihFirst ihSecond => exact .sequence ihFirst ihSecond
  | skip code _ ih => exact .skip code ih
  | choose code _ _ ihBody ihOtherwise => exact .choose code ihBody ihOtherwise
  | loop tested stepped _ _ _ _ ihStart ihTest ihBody ihStep =>
      exact .loop tested stepped ihStart ihTest ihBody ihStep
  | switch _ ih => exact .switch ih
  | case _ _ _ ihTest ihBody ihRest => exact .case ihTest ihBody ihRest
  | emptyCase _ _ ihTest ihRest => exact .emptyCase ihTest ihRest
  | loopJump kind outward => exact .loopJump kind outward

theorem Related.length_eq (h : p.Related R q) : p.length = q.length := by
  induction h <;> simp_all only [length]

theorem Related.entry_eq (h : p.Related R q) (position : Nat) :
    p.entry position = q.entry position := by
  induction h generalizing position with
  | case htest => simp only [entry, htest.length_eq]
  | emptyCase htest _ _ ih => simp only [entry, htest.length_eq, ih]
  | _ => rfl

/-- Programs of the same shape have the same jumps. -/
theorem Related.code (hjump : ∀ code target, R (.jump code target) (.jump code target))
    (h : p.Related R q) :
    ∀ landings position, List.Forall₂ R (p.code landings position) (q.code landings position) := by
  induction h with
  | nothing => intro landings position; exact .nil
  | instruction h => intro landings position; exact .cons h .nil
  | sequence hp _ ihp ihq =>
      intro landings position
      simp only [Program.code, hp.length_eq]
      exact List.rel_append (ihp _ _) (ihq _ _)
  | skip code hp ihp =>
      intro landings position
      simp only [Program.code, hp.length_eq]
      exact .cons (hjump _ _) (ihp _ _)
  | choose code hp hq ihp ihq =>
      intro landings position
      simp only [Program.code, hp.length_eq, hq.length_eq]
      exact .cons (hjump _ _) (List.rel_append (ihp _ _) (.cons (hjump _ _) (ihq _ _)))
  | loop tested stepped hstart htest hbody hstep ihStart ihTest ihBody ihStep =>
      intro landings position
      simp only [Program.code, hstart.length_eq, htest.length_eq, hbody.length_eq, hstep.length_eq]
      refine List.rel_append (List.rel_append (List.rel_append (List.rel_append (ihStart _ _) ?_)
        (ihBody _ _)) (ihStep _ _)) (.cons (hjump _ _) .nil)
      split
      · exact List.rel_append (ihTest _ _) (.cons (hjump _ _) .nil)
      · exact .nil
  | switch hp ihp =>
      intro landings position
      simp only [Program.code, hp.length_eq]
      exact ihp _ _
  | case htest hbody _ ihTest ihBody ihRest =>
      intro landings position
      simp only [Program.code, htest.length_eq, hbody.length_eq]
      exact List.rel_append (List.rel_append (ihTest _ _) (.cons (hjump _ _) (ihBody _ _)))
        (ihRest _ _)
  | emptyCase htest hrest ihTest ihRest =>
      intro landings position
      simp only [Program.code, htest.length_eq, hrest.entry_eq]
      exact List.rel_append (ihTest _ _) (.cons (hjump _ _) (ihRest _ _))
  | loopJump kind outward =>
      intro landings position
      exact .cons (hjump _ _) .nil

end Program

/-! ## Steps without code -/

/-- Whether two states agree in all that lowering looks at. -/
structure Alike (s t : State) : Prop where
  target : s.script.target = t.script.target
  flags : s.script.settings.flagDeveloperCalls = t.script.settings.flagDeveloperCalls
  namespaceHash : s.script.namespaceHash = t.script.namespaceHash
  function : s.function = t.function

/-- The hash of a name does not depend on the names that are remembered. -/
theorem hash_eq_hash {r r₁ u u₁ : Name.Registry} {revision : Revision} {name : String}
    {a b : UInt32} (ha : r.hash revision name = .ok (a, r₁))
    (hb : u.hash revision name = .ok (b, u₁)) : a = b := by
  unfold Name.Registry.hash at ha hb
  split at ha
  · split at ha
    · simp_all
    · cases ha
  · simp_all [Name.Registry.hashName]

theorem hash64_eq_hash64 {r r₁ u u₁ : Name.Registry} {revision : Revision} {name : String}
    {a b : UInt64} (ha : r.hash64 revision name = .ok (a, r₁))
    (hb : u.hash64 revision name = .ok (b, u₁)) : a = b := by
  unfold Name.Registry.hash64 at ha hb
  split at ha
  · rename_i value hliteral
    split at ha
    · cases ha
    · rename_i hsmall
      simp only [hliteral, if_neg hsmall] at hb
      cases ha
      cases hb
      rfl
  · cases revision <;> simp_all [Name.Registry.hashName]

section Steps

variable {s t s' t' : State}

theorem Alike.withNames (h : Alike s t) (names names' : Name.Registry) :
    Alike (withNames s names) (withNames t names') :=
  ⟨h.target, h.flags, h.namespaceHash, h.function⟩

theorem Alike.withLocal (h : Alike s t) (hash : UInt32) :
    Alike (withLocal s hash) (withLocal t hash) :=
  ⟨h.target, h.flags, h.namespaceHash, congrArg (·.addLocal hash) h.function⟩

theorem Alike.withTables (h : Alike s t) (tables tables' : Tables) :
    Alike (withTables s tables) (withTables t tables') :=
  ⟨h.target, h.flags, h.namespaceHash, h.function⟩

/-- Steps without code do the same in states that are alike. -/
theorem Silent.alike {target : Target} {known : List UInt32} {x : Lower α}
    {learned : α → List UInt32} (hx : Silent target known x learned) :
    ∀ {s t s' t' : State} {a b : α}, Alike s t → s.script.target = target → x s = .ok (a, s') →
      x t = .ok (b, t') → a = b ∧ Alike s' t' ∧ s'.script.target = target := by
  induction hx with
  | pure a hlearned =>
      intro s t s' t' b b' h htarget hs ht
      cases hs
      cases ht
      exact ⟨rfl, h, htarget⟩
  | throw e => intro s t s' t' b b' _ _ hs _; cases hs
  | bind hx hf ihx ihf =>
      intro s t s' t' b b' h htarget hs ht
      obtain ⟨a, s₁, hs₁, hs₂⟩ := exists_of_bind_eq_ok hs
      obtain ⟨a', t₁, ht₁, ht₂⟩ := exists_of_bind_eq_ok ht
      -- both runs go on with one value, so with the same step
      obtain ⟨rfl, h₁, htarget₁⟩ := ihx h htarget hs₁ ht₁
      exact ihf a h₁ htarget₁ hs₂ ht₂
  | atTarget _ ih =>
      intro s t s' t' b b' h htarget hs ht
      refine ih h htarget ?_ ?_
      · rw [← htarget]; exact hs
      · rw [← htarget, h.target]; exact ht
  | namespaceHash =>
      intro s t s' t' b b' h htarget hs ht
      cases hs
      cases ht
      exact ⟨h.namespaceHash, h, htarget⟩
  | callFlags name namespaceHash context =>
      intro s t s' t' b b' h htarget hs ht
      cases hs
      cases ht
      refine ⟨?_, h, htarget⟩
      simp only [h.namespaceHash, h.target, h.flags]
  | hash name =>
      intro s t s' t' b b' h htarget hs ht
      obtain ⟨names, hnames, rfl⟩ := hashName_eq_ok.mp hs
      obtain ⟨names', hnames', rfl⟩ := hashName_eq_ok.mp ht
      rw [h.target] at hnames
      exact ⟨hash_eq_hash hnames hnames', h.withNames _ _, htarget⟩
  | declare name =>
      intro s t s' t' b b' h htarget hs ht
      obtain ⟨names, hnames, rfl⟩ := declare_eq_ok.mp hs
      obtain ⟨names', hnames', rfl⟩ := declare_eq_ok.mp ht
      rw [h.target] at hnames
      obtain rfl := hash_eq_hash hnames hnames'
      exact ⟨rfl, (h.withNames _ _).withLocal _, htarget⟩
  | declaredLocal name =>
      intro s t s' t' b b' h htarget hs ht
      obtain ⟨names, hnames, -, rfl⟩ := declaredLocal_eq_ok.mp hs
      obtain ⟨names', hnames', -, rfl⟩ := declaredLocal_eq_ok.mp ht
      rw [h.target] at hnames
      exact ⟨hash_eq_hash hnames hnames', h.withNames _ _, htarget⟩
  | popSwitchKey =>
      intro s t s' t' b b' h htarget hs ht
      obtain ⟨rest, hkeys, rfl⟩ := popSwitchKey_eq_ok.mp hs
      obtain ⟨rest', hkeys', rfl⟩ := popSwitchKey_eq_ok.mp ht
      rw [← h.function, hkeys] at hkeys'
      obtain ⟨rfl, rfl⟩ := List.cons.inj hkeys'
      exact ⟨rfl, ⟨h.target, h.flags, h.namespaceHash, by rw [h.function]⟩, htarget⟩
  | popForeachLocals =>
      intro s t s' t' b b' h htarget hs ht
      obtain ⟨rest, hkeys, rfl⟩ := popForeachLocals_eq_ok.mp hs
      obtain ⟨rest', hkeys', rfl⟩ := popForeachLocals_eq_ok.mp ht
      rw [← h.function, hkeys] at hkeys'
      obtain ⟨rfl, rfl⟩ := List.cons.inj hkeys'
      exact ⟨rfl, ⟨h.target, h.flags, h.namespaceHash, by rw [h.function]⟩, htarget⟩
  | reserve hswitches hforeaches =>
      intro s t s' t' b b' h htarget hs ht
      cases hs
      cases ht
      exact ⟨rfl, ⟨h.target, h.flags, h.namespaceHash, by simp only [h.function]⟩, htarget⟩

end Steps

/-! ## Pieces of lowering -/

/-- Whether two states are alike, both are states of lowering for the target, and the known locals are
declared. -/
structure Twins (target : Target) (known : List UInt32) (s t : State) : Prop where
  alike : Alike s t
  first : Consistent target s
  second : Consistent target t
  known : ∀ hash ∈ known, hash ∈ s.function.locals

/-- Whether two states were left behind for two others. -/
structure Advances (s t s' t' : State) : Prop where
  first : Extends s s'
  second : Extends t t'

theorem Advances.trans {s t s₁ t₁ s' t' : State} (h : Advances s t s₁ t₁)
    (h' : Advances s₁ t₁ s' t') : Advances s t s' t' :=
  ⟨h.first.trans h'.first, h.second.trans h'.second⟩

/-- Whether two programs are the same, each with the tables of its state. -/
def SameCode (s t : State) (p q : Program) : Prop :=
  p.Related (Instruction.Same s.script.tables t.script.tables) q

theorem SameCode.mono {s t s' t' : State} (h : Advances s t s' t') {p q : Program}
    (hpq : SameCode s t p q) : SameCode s' t' p q :=
  Program.Related.mono (fun _ _ => .mono h.first.tables h.second.tables) hpq

/-- Whether a sketch gives the same result and the same program in states that are alike. -/
def Mirrored (target : Target) (known : List UInt32) (y : Sketch α) (learned : α → List UInt32) :
    Prop :=
  ∀ ⦃s t : State⦄ ⦃a b : α⦄ ⦃p q : Program⦄ ⦃s' t' : State⦄, Twins target known s t →
    y.run s = .ok ((a, p), s') → y.run t = .ok ((b, q), t') →
    a = b ∧ Twins target (learned a ++ known) s' t' ∧ Advances s t s' t' ∧ SameCode s' t' p q

section Pieces

variable {target : Target} {known : List UInt32}

/-- What remains to be shown of a sketch that names what exists. -/
theorem mirrored_of_resolves {y : Sketch α} {learned : α → List UInt32}
    (hy : Resolves target known y learned)
    (h : ∀ ⦃s t : State⦄ ⦃a b : α⦄ ⦃p q : Program⦄ ⦃s' t' : State⦄, Twins target known s t →
      y.run s = .ok ((a, p), s') → y.run t = .ok ((b, q), t') →
      a = b ∧ Alike s' t' ∧ SameCode s' t' p q) :
    Mirrored target known y learned := by
  intro s t a b p q s' t' htwins hrun hrun'
  obtain ⟨rfl, halike, hsame⟩ := h htwins hrun hrun'
  obtain ⟨hleaves, -⟩ := hy htwins.first htwins.known hrun
  obtain ⟨hleaves', -⟩ := hy htwins.second (htwins.alike.function ▸ htwins.known) hrun'
  refine ⟨rfl, ⟨halike, hleaves.consistent, hleaves'.consistent, fun hash hhash => ?_⟩,
    ⟨hleaves.extended, hleaves'.extended⟩, hsame⟩
  rcases List.mem_append.mp hhash with hhash | hhash
  · exact hleaves.declared hash hhash
  · exact hleaves.extended.locals hash (htwins.known hash hhash)

theorem mirrored_silent {x : Lower α} {learned : α → List UInt32}
    (hx : Silent target known x learned) : Mirrored target known (.silent x) learned := by
  refine mirrored_of_resolves (resolves_silent hx) ?_
  intro s t a b p q s' t' h hrun hrun'
  obtain ⟨hstep, rfl⟩ := silent_eq_ok.mp hrun
  obtain ⟨hstep', rfl⟩ := silent_eq_ok.mp hrun'
  obtain ⟨heq, h', -⟩ := hx.alike h.alike h.first.script hstep hstep'
  exact ⟨heq, h', .nothing⟩

theorem mirrored_bind {x : Sketch α} {f : α → Sketch β} {learned : α → List UInt32}
    {later : β → List UInt32} (hx : Mirrored target known x learned)
    (hf : ∀ a, Mirrored target (learned a ++ known) (f a) later) :
    Mirrored target known (x >>= f) later := by
  intro s t b b' p q s' t' h hrun hrun'
  obtain ⟨a, first, s₁, second, hfirst, hsecond, rfl⟩ := exists_of_sketch_bind_eq_ok hrun
  obtain ⟨a', first', t₁, second', hfirst', hsecond', rfl⟩ := exists_of_sketch_bind_eq_ok hrun'
  obtain ⟨rfl, h₁, hadvances₁, hsame₁⟩ := hx h hfirst hfirst'
  obtain ⟨rfl, h₂, hadvances₂, hsame₂⟩ := hf a h₁ hsecond hsecond'
  refine ⟨rfl, ⟨h₂.alike, h₂.first, h₂.second, fun hash hhash => h₂.known hash ?_⟩,
    hadvances₁.trans hadvances₂, .sequence (hsame₁.mono hadvances₂) hsame₂⟩
  simp only [List.mem_append] at hhash ⊢
  tauto

theorem mirrored_atTarget {f : Target → Sketch α} {learned : α → List UInt32}
    (hf : Mirrored target known (f target) learned) :
    Mirrored target known (.silent getTarget >>= f) learned := by
  intro s t a b p q s' t' h hrun hrun'
  obtain ⟨_, _, s₁, second, hfirst, hsecond, rfl⟩ := exists_of_sketch_bind_eq_ok hrun
  obtain ⟨_, _, t₁, second', hfirst', hsecond', rfl⟩ := exists_of_sketch_bind_eq_ok hrun'
  obtain ⟨htarget, rfl⟩ := silent_eq_ok.mp hfirst
  obtain ⟨htarget', rfl⟩ := silent_eq_ok.mp hfirst'
  cases htarget
  cases htarget'
  rw [h.first.script] at hsecond
  rw [h.second.script] at hsecond'
  obtain ⟨heq, h₁, hadvances, hsame⟩ := hf h hsecond hsecond'
  exact ⟨heq, h₁, hadvances, .sequence .nothing hsame⟩

theorem mirrored_write {i : Instruction} (hemittable : i.Emittable target.revision)
    (hnames : OnlyNames known i) :
    Mirrored target known (write (.instruction i)) nothingLearned := by
  refine mirrored_of_resolves (resolves_write hemittable hnames) ?_
  intro s t a b p q s' t' h hrun hrun'
  cases hrun
  cases hrun'
  have hplain : i.uses? = none := by cases i <;> first | rfl | exact absurd hnames id
  exact ⟨rfl, h.alike, .instruction (.plain hplain)⟩

theorem mirrored_eval {hash : UInt32} (context : Context) (hknown : hash ∈ known) :
    Mirrored target known (writeEval hash context) nothingLearned := by
  refine mirrored_of_resolves (resolves_eval context hknown) ?_
  intro s t a b p q s' t' h hrun hrun'
  cases hrun
  cases hrun'
  refine ⟨rfl, h.alike, .sequence .nothing ?_⟩
  rw [h.alike.function]
  exact .instruction (.plain rfl)

theorem mirrored_number (value : Number.Constant) :
    Mirrored target known (writeNumber value) nothingLearned := by
  refine mirrored_of_resolves (resolves_number value) ?_
  intro s t a b p q s' t' h hrun hrun'
  obtain ⟨checked, _, s₁, second, hfirst, hsecond, rfl⟩ := exists_of_sketch_bind_eq_ok hrun
  obtain ⟨checked', _, t₁, second', hfirst', hsecond', rfl⟩ := exists_of_sketch_bind_eq_ok hrun'
  cases hchecked : value.checked with
  | error e => rw [hchecked] at hfirst; cases hfirst
  | ok result =>
      rw [hchecked] at hfirst hfirst'
      cases hfirst
      cases hfirst'
      cases hsecond
      cases hsecond'
      exact ⟨rfl, h.alike, .sequence .nothing (.instruction (.plain rfl))⟩

theorem mirrored_canonicalHash (name : String) :
    Mirrored target known (do write (.instruction (.hash (← hashName64 name)))) nothingLearned := by
  refine mirrored_of_resolves (resolves_canonicalHash name) ?_
  intro s t a b p q s' t' h hrun hrun'
  obtain ⟨value, _, s₁, second, hfirst, hsecond, rfl⟩ := exists_of_sketch_bind_eq_ok hrun
  obtain ⟨value', _, t₁, second', hfirst', hsecond', rfl⟩ := exists_of_sketch_bind_eq_ok hrun'
  obtain ⟨hhash, rfl⟩ := silent_eq_ok.mp hfirst
  obtain ⟨hhash', rfl⟩ := silent_eq_ok.mp hfirst'
  obtain ⟨names, hnames, rfl⟩ := hashName64_eq_ok.mp hhash
  obtain ⟨names', hnames', rfl⟩ := hashName64_eq_ok.mp hhash'
  rw [h.alike.target] at hnames
  obtain rfl := hash64_eq_hash64 hnames hnames'
  cases hsecond
  cases hsecond'
  exact ⟨rfl, h.alike.withNames _ _, .sequence .nothing (.instruction (.plain rfl))⟩

/-- The same value is asked for in both states, and found at a position of each. -/
theorem mirrored_intern (instruction : Nat → Instruction) {x : Lower Nat} {kind : TableKind}
    {value : TableValue} (hx : Interns x kind value)
    (hemittable : ∀ entry, (instruction entry).Emittable target.revision)
    (hentry : ∀ entry, (instruction entry).uses? = some (kind, entry))
    (hsame : ∀ {t u : Tables} {entry other : Nat}, t.SameValue u kind entry other →
      Instruction.Same t u (instruction entry) (instruction other)) :
    Mirrored target known (do
      let entry ← Sketch.silent x
      write (.instruction (instruction entry))) nothingLearned := by
  refine mirrored_of_resolves (resolves_intern instruction hx hemittable hentry) ?_
  intro s t a b p q s' t' h hrun hrun'
  obtain ⟨entry, _, s₁, second, hfirst, hsecond, rfl⟩ := exists_of_sketch_bind_eq_ok hrun
  obtain ⟨other, _, t₁, second', hfirst', hsecond', rfl⟩ := exists_of_sketch_bind_eq_ok hrun'
  obtain ⟨hstep, rfl⟩ := silent_eq_ok.mp hfirst
  obtain ⟨hstep', rfl⟩ := silent_eq_ok.mp hfirst'
  obtain ⟨_, tables, hasked, hinterned⟩ := hx s h.first.tables
  obtain ⟨_, tables', hasked', hinterned'⟩ := hx t h.second.tables
  rw [hasked] at hstep
  rw [hasked'] at hstep'
  cases hstep
  cases hstep'
  cases hsecond
  cases hsecond'
  refine ⟨rfl, h.alike.withTables _ _, .sequence .nothing (.instruction (hsame ?_))⟩
  exact ⟨value, hinterned.value, hinterned'.value⟩

theorem mirrored_skip {code : Opcode} {body : Sketch Unit}
    (hbody : Mirrored target known body nothingLearned) :
    Mirrored target known (skipping code body) nothingLearned := by
  intro s t a b p q s' t' h hrun hrun'
  obtain ⟨_, hp, rfl⟩ := wrap_eq_ok.mp hrun
  obtain ⟨_, hq, rfl⟩ := wrap_eq_ok.mp hrun'
  obtain ⟨-, h₁, hadvances, hsame⟩ := hbody h hp hq
  exact ⟨rfl, h₁, hadvances, .skip code hsame⟩

theorem mirrored_join {x y : Sketch Unit} {f : Program → Program → Program}
    (hf : ∀ {R : Instruction → Instruction → Prop} {p p' q q' : Program}, p.Related R p' →
      q.Related R q' → (f p q).Related R (f p' q'))
    (hx : Mirrored target known x nothingLearned) (hy : Mirrored target known y nothingLearned) :
    Mirrored target known (Sketch.join f x y) nothingLearned := by
  intro s t a b p q s' t' h hrun hrun'
  obtain ⟨_, s₁, _, hp, hq, rfl⟩ := join_eq_ok.mp hrun
  obtain ⟨_, t₁, _, hp', hq', rfl⟩ := join_eq_ok.mp hrun'
  obtain ⟨-, h₁, hadvances₁, hsame₁⟩ := hx h hp hp'
  obtain ⟨-, h₂, hadvances₂, hsame₂⟩ := hy h₁ hq hq'
  exact ⟨rfl, h₂, hadvances₁.trans hadvances₂, hf (hsame₁.mono hadvances₂) hsame₂⟩

theorem mirrored_optional {x : Option (Lower Unit × Sketch Unit)}
    (h : ∀ p ∈ x, Mirrored target known p.2 nothingLearned) :
    Mirrored target known (optional (x.map (·.2))) nothingLearned := by
  cases x with
  | none =>
      intro s t a b p q s' t' h hrun hrun'
      cases hrun
      cases hrun'
      exact ⟨rfl, h, ⟨.refl s, .refl t⟩, .nothing⟩
  | some p => exact h p rfl

theorem mirrored_loop {start body : Sketch Unit} {test step : Option (Lower Unit × Sketch Unit)}
    (hstart : Mirrored target known start nothingLearned)
    (htest : ∀ p ∈ test, Mirrored target known p.2 nothingLearned)
    (hbody : Mirrored target known body nothingLearned)
    (hstep : ∀ p ∈ step, Mirrored target known p.2 nothingLearned) :
    Mirrored target known (looping start (test.map (·.2)) body (step.map (·.2))) nothingLearned := by
  intro s t a b p q s' t' h hrun hrun'
  obtain ⟨_, s₁, _, s₂, _, s₃, _, hp₁, hp₂, hp₃, hp₄, rfl⟩ := looping_eq_ok.mp hrun
  obtain ⟨_, t₁, _, t₂, _, t₃, _, hq₁, hq₂, hq₃, hq₄, rfl⟩ := looping_eq_ok.mp hrun'
  obtain ⟨-, h₁, hadvances₁, hsame₁⟩ := hstart h hp₁ hq₁
  obtain ⟨-, h₂, hadvances₂, hsame₂⟩ := mirrored_optional htest h₁ hp₂ hq₂
  obtain ⟨-, h₃, hadvances₃, hsame₃⟩ := hbody h₂ hp₃ hq₃
  obtain ⟨-, h₄, hadvances₄, hsame₄⟩ := mirrored_optional hstep h₃ hp₄ hq₄
  have hlater := hadvances₃.trans hadvances₄
  exact ⟨rfl, h₄, hadvances₁.trans (hadvances₂.trans hlater),
    .loop _ _ (hsame₁.mono (hadvances₂.trans hlater)) (hsame₂.mono hlater) (hsame₃.mono hadvances₄)
      hsame₄⟩

theorem mirrored_forM {body : List (Lower Unit × Sketch Unit)}
    (h : ∀ p ∈ body, Mirrored target known p.2 nothingLearned) :
    Mirrored target known ((body.map (·.2)).forM id) nothingLearned := by
  induction body with
  | nil => exact mirrored_optional (x := none) (by simp)
  | cons first rest ih =>
      exact mirrored_bind (h first (by simp)) fun _ => ih fun p hp => h p (by simp [hp])

variable {key : UInt32}

theorem mirrored_store (hkey : key ∈ known) :
    Mirrored target known (writeStore key) nothingLearned := by
  refine mirrored_atTarget (f := fun t => if t.isLegacy then _ else _) ?_
  split
  · exact mirrored_bind (mirrored_eval .isRef hkey) fun _ =>
      mirrored_write (i := .op .setVariableField) rfl trivial
  · exact mirrored_write (i := .localVariable .setLocalVariableCached key) rfl hkey

theorem mirrored_branchTest {value : Sketch Unit} (hkey : key ∈ known)
    (hvalue : Mirrored target known value nothingLearned) :
    Mirrored target known (branchTest key value) nothingLearned :=
  mirrored_bind hvalue fun _ => mirrored_bind (mirrored_eval .plain hkey) fun _ =>
    mirrored_write (i := .op .equal) rfl trivial

theorem mirrored_branching {branches : List PairedBranch} (hkey : key ∈ known)
    (hvalues : ∀ b ∈ branches, ∀ p ∈ b.value, Mirrored target known p.2 nothingLearned)
    (hbodies : ∀ b ∈ branches, ∀ p ∈ b.body, Mirrored target known p.2 nothingLearned) :
    Mirrored target known (branching key (branches.map (·.sketched))) nothingLearned := by
  induction branches with
  | nil => exact mirrored_optional (x := none) (by simp)
  | cons b rest ih =>
      have hrest := ih (fun b hb => hvalues b (by simp [hb])) (fun b hb => hbodies b (by simp [hb]))
      obtain ⟨value, body⟩ := b
      have hbody := mirrored_forM (hbodies _ (List.mem_cons_self ..))
      cases value with
      | none => exact hbody
      | some value =>
          have htest := mirrored_branchTest hkey (hvalues _ (List.mem_cons_self ..) value rfl)
          cases body with
          | nil => exact mirrored_join .emptyCase htest hrest
          | cons first others =>
              intro s t a b p q s' t' h hrun hrun'
              obtain ⟨_, s₁, _, s₂, _, hp₁, hp₂, hp₃, rfl⟩ := branching_case_eq_ok.mp hrun
              obtain ⟨_, t₁, _, t₂, _, hq₁, hq₂, hq₃, rfl⟩ := branching_case_eq_ok.mp hrun'
              obtain ⟨-, h₁, hadvances₁, hsame₁⟩ := htest h hp₁ hq₁
              obtain ⟨-, h₂, hadvances₂, hsame₂⟩ := hbody h₁ hp₂ hq₂
              obtain ⟨-, h₃, hadvances₃, hsame₃⟩ := hrest h₂ hp₃ hq₃
              have hlater := hadvances₂.trans hadvances₃
              exact ⟨rfl, h₃, hadvances₁.trans hlater,
                .case (hsame₁.mono hlater) (hsame₂.mono hadvances₃) hsame₃⟩

/-- What follows lowering does the same in states that are alike. -/
theorem mirrored_of_follows {x : Lower α} {y : Sketch α} {learned : α → List UInt32}
    (h : Follows target known x y learned) : Mirrored target known y learned := by
  induction h with
  | silent h => exact mirrored_silent h
  | bind _ _ ihx ihf => exact mirrored_bind ihx ihf
  | atTarget _ ih => exact mirrored_atTarget ih
  | emit i hemittable hnames => exact mirrored_write hemittable hnames
  | eval context hknown => exact mirrored_eval context hknown
  | number value => exact mirrored_number value
  | canonicalHash name => exact mirrored_canonicalHash name
  | string text hcode =>
      exact mirrored_intern (.string _) (interns_string text) (fun _ => hcode) (fun _ => rfl) .string
  | debugString hash hrevision =>
      exact mirrored_intern .debugString (interns_debugString hash) (fun _ => hrevision)
        (fun _ => rfl) .debugString
  | global hash hcode hrevision =>
      exact mirrored_intern (.global _) (interns_global hash) (fun _ => ⟨hcode, hrevision⟩)
        (fun _ => rfl) .global
  | call key hcode =>
      exact mirrored_intern (.call _) (interns_import key) (fun _ => hcode) (fun _ => rfl) .call
  | functionPointer key hcode =>
      exact mirrored_intern (.functionPointer _) (interns_import key) (fun _ => hcode)
        (fun _ => rfl) .functionPointer
  | skip hcode _ ih => exact mirrored_skip ih
  | choose hcode _ _ ihBody ihOtherwise => exact mirrored_join (.choose _) ihBody ihOtherwise
  | loop _ _ _ _ _ _ ihStart ihTest ihBody ihStep => exact mirrored_loop ihStart ihTest ihBody ihStep
  | switch _ hkey _ _ _ ihValue ihValues ihBodies =>
      intro s t a b p q s' t' h hrun hrun'
      obtain ⟨_, hp, rfl⟩ := wrap_eq_ok.mp hrun
      obtain ⟨_, hq, rfl⟩ := wrap_eq_ok.mp hrun'
      have hinside := mirrored_bind ihValue fun _ => mirrored_bind (mirrored_store hkey)
        fun _ => mirrored_branching hkey ihValues ihBodies
      obtain ⟨-, h₁, hadvances, hsame⟩ := hinside h hp hq
      exact ⟨rfl, h₁, hadvances, .switch hsame⟩
  | loopJump kind levels =>
      intro s t a b p q s' t' h hrun hrun'
      cases hrun
      cases hrun'
      exact ⟨rfl, h, ⟨.refl s, .refl t⟩, .loopJump _ _⟩

end Pieces

end GscAssembler.Control
