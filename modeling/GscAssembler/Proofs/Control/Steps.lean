import GscAssembler.Proofs.Control.Follows

/-!
# What single steps do

Each step of lowering that can fail is described by the cases in which it does not, and by the state
it then leaves.
-/

namespace GscAssembler.Control

open Code (Context ForeachLocals ScriptFunction)
open Lowering
open Reference (Tables)

variable {α β : Type}

/-! ## One piece after the other -/

theorem bind_of_eq_ok {x : Lower α} {f : α → Lower β} {s s' : State} {a : α}
    (h : x s = .ok (a, s')) : (x >>= f) s = f a s' := by
  change (x s).bind _ = _
  rw [h]
  rfl

theorem bind_of_eq_error {x : Lower α} {f : α → Lower β} {s : State} {e : CompileError}
    (h : x s = .error e) : (x >>= f) s = .error e := by
  change (x s).bind _ = _
  rw [h]
  rfl

theorem exists_of_bind_eq_ok {x : Lower α} {f : α → Lower β} {s t : State} {b : β}
    (h : (x >>= f) s = .ok (b, t)) : ∃ a s', x s = .ok (a, s') ∧ f a s' = .ok (b, t) := by
  change (x s).bind _ = _ at h
  cases hx : x s with
  | error e => rw [hx] at h; cases h
  | ok r =>
      rw [hx] at h
      exact ⟨r.1, r.2, rfl, h⟩

theorem exists_of_sketch_bind_eq_ok {x : Sketch α} {f : α → Sketch β} {s t : State} {b : β}
    {p : Program} (h : (x >>= f).run s = .ok ((b, p), t)) :
    ∃ a first s' second, x.run s = .ok ((a, first), s') ∧ (f a).run s' = .ok ((b, second), t) ∧
      p = .sequence first second := by
  change (x.run s).bind _ = _ at h
  cases hx : x.run s with
  | error e => rw [hx] at h; cases h
  | ok r =>
      obtain ⟨⟨a, first⟩, s'⟩ := r
      rw [hx] at h
      change ((f a).run s').bind _ = _ at h
      cases hf : (f a).run s' with
      | error e => rw [hf] at h; cases h
      | ok r =>
          obtain ⟨⟨b', second⟩, t'⟩ := r
          rw [hf] at h
          cases h
          exact ⟨a, first, s', second, rfl, hf, rfl⟩

theorem sketch_bind_of_eq_ok {x : Sketch α} {f : α → Sketch β} {s s' t : State} {a : α} {b : β}
    {first second : Program} (hx : x.run s = .ok ((a, first), s'))
    (hf : (f a).run s' = .ok ((b, second), t)) :
    (x >>= f).run s = .ok ((b, .sequence first second), t) := by
  change (x.run s).bind _ = _
  rw [hx]
  change ((f a).run s').bind _ = _
  rw [hf]
  rfl

/-! ## Sketches made of others -/

section Sketches

variable {s s' : State}

theorem except_bind_eq_ok {ε : Type} {x : Except ε α} {f : α → Except ε β} {b : β} :
    x.bind f = .ok b ↔ ∃ a, x = .ok a ∧ f a = .ok b := by
  cases x <;> simp [Except.bind]

/-- What a computation gives is kept, and what it leaves becomes part of something larger. -/
theorem except_bind_pair_eq_ok {ε γ : Type} {x : Except ε (α × β)} {f : β → γ} {a : α} {c : γ} :
    x.bind (fun r => .ok (r.1, f r.2)) = .ok (a, c) ↔ ∃ b, x = .ok (a, b) ∧ c = f b := by
  simp only [except_bind_eq_ok, Except.ok.injEq, Prod.exists, Prod.mk.injEq]
  grind

theorem except_bind_eq_error {ε : Type} {x : Except ε α} {f : α → Except ε β} {e : ε} :
    x.bind f = .error e ↔ x = .error e ∨ ∃ a, x = .ok a ∧ f a = .error e := by
  cases x <;> simp [Except.bind]

theorem silent_eq_ok {x : Lower α} {a : α} {p : Program} :
    (Sketch.silent x).run s = .ok ((a, p), s') ↔ x s = .ok (a, s') ∧ p = .nothing := by
  change (x s).bind (fun r => .ok ((r.1, Program.nothing), r.2)) = _ ↔ _
  simp only [except_bind_eq_ok, Except.ok.injEq, Prod.exists, Prod.mk.injEq]
  grind

theorem wrap_eq_ok {f : Program → Program} {x : Sketch Unit} {q : Program} :
    (x.wrap f).run s = .ok (((), q), s') ↔ ∃ p, x.run s = .ok (((), p), s') ∧ q = f p := by
  change (x.run s).bind (fun r => .ok (((), f r.1.2), r.2)) = _ ↔ _
  simp only [except_bind_eq_ok, Except.ok.injEq, Prod.exists, Prod.mk.injEq]
  grind

theorem join_eq_ok {f : Program → Program → Program} {x y : Sketch Unit} {r : Program} :
    (Sketch.join f x y).run s = .ok (((), r), s') ↔
      ∃ p s₁ q, x.run s = .ok (((), p), s₁) ∧ y.run s₁ = .ok (((), q), s') ∧ r = f p q := by
  change (x.run s).bind (fun r => (y.run r.2).bind fun r' => .ok (((), f r.1.2 r'.1.2), r'.2)) = _ ↔ _
  simp only [except_bind_eq_ok, Except.ok.injEq, Prod.exists, Prod.mk.injEq]
  grind

/-- The sketch of a part that may be missing. -/
def optional (x : Option (Sketch Unit)) : Sketch Unit :=
  x.getD (pure ())

theorem looping_eq_ok {start body : Sketch Unit} {test step : Option (Sketch Unit)} {q : Program} :
    (looping start test body step).run s = .ok (((), q), s') ↔
      ∃ p₁ s₁ p₂ s₂ p₃ s₃ p₄, start.run s = .ok (((), p₁), s₁) ∧
        (optional test).run s₁ = .ok (((), p₂), s₂) ∧ body.run s₂ = .ok (((), p₃), s₃) ∧
        (optional step).run s₃ = .ok (((), p₄), s') ∧
        q = .loop p₁ p₂ p₃ p₄ test.isSome step.isSome := by
  change (start.run s).bind (fun r₁ => ((optional test).run r₁.2).bind fun r₂ =>
    (body.run r₂.2).bind fun r₃ => ((optional step).run r₃.2).bind fun r₄ =>
      .ok (((), Program.loop r₁.1.2 r₂.1.2 r₃.1.2 r₄.1.2 test.isSome step.isSome), r₄.2)) = _ ↔ _
  simp only [except_bind_eq_ok, Except.ok.injEq, Prod.exists, Prod.mk.injEq]
  grind

theorem branching_case_eq_ok {key : UInt32} {value first : Sketch Unit} {others : List (Sketch Unit)}
    {rest : List SketchedBranch} {r : Program} :
    (branching key (.case value (first :: others) :: rest)).run s = .ok (((), r), s') ↔
      ∃ t s₁ p s₂ q, (branchTest key value).run s = .ok (((), t), s₁) ∧
        ((first :: others).forM id : Sketch Unit).run s₁ = .ok (((), p), s₂) ∧
        (branching key rest).run s₂ = .ok (((), q), s') ∧ r = .case t p q := by
  change ((branchTest key value).run s).bind (fun r₁ =>
    (((first :: others).forM id : Sketch Unit).run r₁.2).bind fun r₂ =>
      ((branching key rest).run r₂.2).bind fun r₃ =>
        .ok (((), Program.case r₁.1.2 r₂.1.2 r₃.1.2), r₃.2)) = _ ↔ _
  simp only [except_bind_eq_ok, Except.ok.injEq, Prod.exists, Prod.mk.injEq]
  grind

end Sketches

/-! ## Names and locals -/

/-- A state with other remembered names. -/
def withNames (s : State) (names : Name.Registry) : State :=
  { s with script := { s.script with names } }

/-- A state with a local declared. -/
def withLocal (s : State) (hash : UInt32) : State :=
  { s with function := s.function.addLocal hash }

/-- A state with other tables. -/
def withTables (s : State) (tables : Tables) : State :=
  { s with script := { s.script with tables } }

section Inversion

variable {s s' : State} {name : String} {hash : UInt32}

/-- Hashing touches nothing of the state but the names the script remembers. -/
theorem bind_names_eq_ok {x : Except CompileError (α × Name.Registry)} {a : α} :
    ((x.bind fun r => .ok (r.1, { s.script with names := r.2 })).bind fun r =>
      .ok (r.1, { s with script := r.2 })) = .ok (a, s') ↔
      ∃ names, x = .ok (a, names) ∧ s' = withNames s names := by
  cases x with
  | error e => simp [Except.bind]
  | ok r =>
      obtain ⟨value, names⟩ := r
      simp only [Except.bind, Except.ok.injEq, Prod.mk.injEq]
      constructor
      · rintro ⟨rfl, rfl⟩
        exact ⟨names, ⟨rfl, rfl⟩, rfl⟩
      · rintro ⟨_, ⟨rfl, rfl⟩, rfl⟩
        exact ⟨rfl, rfl⟩

theorem hashName_eq_ok : hashName name s = .ok (hash, s') ↔
    ∃ names, s.script.names.hash s.script.target.revision name = .ok (hash, names) ∧
      s' = withNames s names :=
  bind_names_eq_ok

theorem hashName64_eq_ok {value : UInt64} : hashName64 name s = .ok (value, s') ↔
    ∃ names, s.script.names.hash64 s.script.target.revision name = .ok (value, names) ∧
      s' = withNames s names :=
  bind_names_eq_ok

theorem declare_eq_ok : declare name s = .ok (hash, s') ↔
    ∃ names, s.script.names.hash s.script.target.revision name = .ok (hash, names) ∧
      s' = withLocal (withNames s names) hash := by
  constructor
  · intro h
    obtain ⟨_, _, hname, hrest⟩ := exists_of_bind_eq_ok h
    obtain ⟨names, hnames, rfl⟩ := hashName_eq_ok.mp hname
    cases hrest
    exact ⟨names, hnames, rfl⟩
  · rintro ⟨names, hnames, rfl⟩
    exact bind_of_eq_ok (hashName_eq_ok.mpr ⟨names, hnames, rfl⟩)

theorem declaredLocal_eq_ok : declaredLocal name s = .ok (hash, s') ↔
    ∃ names, s.script.names.hash s.script.target.revision name = .ok (hash, names) ∧
      s.function.hasLocal hash = true ∧ s' = withNames s names := by
  have hrest : ∀ (names : Name.Registry) (hash : UInt32), (do
      let f := (← get).function
      if f.hasLocal hash then return hash else throw (.unknownVariable name f.name) : Lower UInt32)
        (withNames s names) =
      if s.function.hasLocal hash = true then .ok (hash, withNames s names)
      else .error (.unknownVariable name s.function.name) := by
    intro names hash
    change (if s.function.hasLocal hash = true then _ else _ : Lower UInt32) (withNames s names) = _
    split <;> rfl
  constructor
  · intro h
    obtain ⟨_, _, hname, h⟩ := exists_of_bind_eq_ok h
    obtain ⟨names, hnames, rfl⟩ := hashName_eq_ok.mp hname
    rw [hrest] at h
    split at h
    · cases h
      exact ⟨names, hnames, ‹_›, rfl⟩
    · cases h
  · rintro ⟨names, hnames, hlocal, rfl⟩
    rw [declaredLocal, bind_of_eq_ok (hashName_eq_ok.mpr ⟨names, hnames, rfl⟩), hrest, if_pos hlocal]

theorem popSwitchKey_eq_ok :
    updateFunction (fun f => f.popSwitchKey) s = .ok (hash, s') ↔
      ∃ rest, s.function.switchKeys = hash :: rest ∧
        s' = { s with function := { s.function with switchKeys := rest } } := by
  refine except_bind_pair_eq_ok.trans ?_
  simp only [ScriptFunction.popSwitchKey]
  cases s.function.switchKeys with
  | nil => simp
  | cons first rest => simp [and_assoc]

theorem popForeachLocals_eq_ok {locals : ForeachLocals} :
    updateFunction (fun f => f.popForeachLocals) s = .ok (locals, s') ↔
      ∃ rest, s.function.foreachKeys = locals :: rest ∧
        s' = { s with function := { s.function with foreachKeys := rest } } := by
  refine except_bind_pair_eq_ok.trans ?_
  simp only [ScriptFunction.popForeachLocals]
  cases s.function.foreachKeys with
  | nil => simp
  | cons first rest => simp [and_assoc]

end Inversion

end GscAssembler.Control
