import GscAssembler.Proofs.Lowering.Orderly
import GscAssembler.Proofs.Name.Remembered

/-!
# What lowering leaves behind

Lowering stops at the first step that fails, and what the steps before it did to the script stays.
`Leaves x s outcome t` says that the piece `x`, started in `s`, ends with the outcome and leaves the
state `t`.  This is what running `x` gives, which also tells the state if `x` succeeds; and it holds
of some state for every piece that is made of steps.
-/

namespace GscAssembler.Lowering

variable {α β : Type} {given : Prop} {v : Vocabulary}

/-- How a piece of lowering ends, and the state it leaves.  A step that fails leaves the script as it
is, and the function under construction is of no use any more. -/
inductive Leaves : Lower α → State → Except CompileError α → State → Prop where
  /-- Nothing is left to do. -/
  | done {a : α} {s : State} : Leaves (pure a) s (.ok a) s
  /-- An error. -/
  | thrown {e : CompileError} {s : State} : Leaves (throw e) s (.error e) s
  /-- The first step fails. -/
  | refused {β : Type} {first : Step β} {rest : β → Lower α} {e : CompileError} {s t : State}
      (hfirst : first.run s = .error e) (hscript : t.script = s.script) :
      Leaves (first.run >>= rest) s (.error e) t
  /-- The first step succeeds. -/
  | later {β : Type} {first : Step β} {rest : β → Lower α} {b : β}
      {outcome : Except CompileError α} {s s₁ t : State} (hfirst : first.run s = .ok (b, s₁))
      (hrest : Leaves (rest b) s₁ outcome t) :
      Leaves (first.run >>= rest) s outcome t

/-- The outcome is that of running the piece. -/
theorem Leaves.run_eq {x : Lower α} {s t : State} {outcome : Except CompileError α}
    (h : Leaves x s outcome t) : x s = outcome.map fun a => (a, t) := by
  induction h with
  | done => rfl
  | thrown => rfl
  | refused hfirst _ => exact Control.bind_of_eq_error hfirst
  | later hfirst _ ih => rw [Control.bind_of_eq_ok hfirst, ih]

/-- Every piece that is made of steps leaves some state. -/
theorem Composed.exists_leaves {result : α → Prop} {x : Lower α} (hx : Composed v result given x)
    (s : State) : ∃ outcome t, Leaves x s outcome t := by
  induction hx generalizing s with
  | pure => exact ⟨_, _, .done⟩
  | throw => exact ⟨_, _, .thrown⟩
  | @step _ _ first _ _ _ ih =>
      cases hfirst : first.run s with
      | error e => exact ⟨_, s, .refused hfirst rfl⟩
      | ok r =>
          obtain ⟨outcome, t, hrest⟩ := ih r.1 r.2
          exact ⟨outcome, t, .later hfirst hrest⟩

theorem Leaves.settings_eq {x : Lower α} {s t : State} {outcome : Except CompileError α}
    (h : Leaves x s outcome t) : t.script.settings = s.script.settings := by
  induction h with
  | done => rfl
  | thrown => rfl
  | refused _ hscript => rw [hscript]
  | later hfirst _ ih => rw [ih, Step.script_eq hfirst]

/-! ## Names -/

/-- A step leaves the remembered names, or hashes a name. -/
theorem Step.names_eq {step : Step β} {s s' : State} {b : β} (h : step.run s = .ok (b, s')) :
    s'.script.names = s.script.names ∨
    (∃ name hash, s.script.names.hash s.script.target.revision name =
      .ok (hash, s'.script.names)) ∨
    (∃ name hash, s.script.names.hash64 s.script.target.revision name =
      .ok (hash, s'.script.names)) := by
  cases step with
  | hash name =>
      obtain ⟨names, hnames, rfl⟩ := Control.hashName_eq_ok.mp h
      exact .inr (.inl ⟨name, b, hnames⟩)
  | hash64 name =>
      obtain ⟨names, hnames, rfl⟩ := Control.hashName64_eq_ok.mp h
      exact .inr (.inr ⟨name, b, hnames⟩)
  | switchKey | foreachLocals | number | eval | loopJump | exitLoop =>
      rw [run] at h
      obtain ⟨function, -, rfl⟩ := updateFunction_eq_ok.mp h
      exact .inl rfl
  | _ =>
      cases h
      exact .inl rfl

theorem Step.names_le {step : Step β} {s s' : State} {b : β} (h : step.run s = .ok (b, s')) :
    s.script.names ≤ s'.script.names := by
  rcases step.names_eq h with heq | ⟨name, hash, hname⟩ | ⟨name, hash, hname⟩
  · rw [heq]
    exact Name.Registry.le_refl _
  · exact Name.Registry.le_of_hash hname
  · exact Name.Registry.le_of_hash64 hname

theorem Step.names_sound {step : Step β} {s s' : State} {b : β} (h : step.run s = .ok (b, s'))
    (hsound : s.script.names.Sound s.script.target.revision) :
    s'.script.names.Sound s'.script.target.revision := by
  have htarget : s'.script.target = s.script.target := by rw [step.script_eq h]; rfl
  rw [htarget]
  rcases step.names_eq h with heq | ⟨name, hash, hname⟩ | ⟨name, hash, hname⟩
  · rwa [heq]
  · exact hsound.hash hname
  · exact hsound.hash64 hname

/-- However lowering ends, it keeps all names that were remembered. -/
theorem Leaves.names_le {x : Lower α} {s t : State} {outcome : Except CompileError α}
    (h : Leaves x s outcome t) : s.script.names ≤ t.script.names := by
  induction h with
  | done => exact Name.Registry.le_refl _
  | thrown => exact Name.Registry.le_refl _
  | refused _ hscript =>
      rw [hscript]
      exact Name.Registry.le_refl _
  | later hfirst _ ih => exact Name.Registry.le_trans (Step.names_le hfirst) ih

/-- However lowering ends, the names it remembers are sound. -/
theorem Leaves.names_sound {x : Lower α} {s t : State} {outcome : Except CompileError α}
    (h : Leaves x s outcome t) (hsound : s.script.names.Sound s.script.target.revision) :
    t.script.names.Sound t.script.target.revision := by
  induction h with
  | done => exact hsound
  | thrown => exact hsound
  | refused _ hscript => rwa [hscript]
  | later hfirst _ ih => exact ih (Step.names_sound hfirst hsound)

end GscAssembler.Lowering
