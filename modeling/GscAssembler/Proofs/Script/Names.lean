import GscAssembler.Proofs.Lowering.Outcome
import GscAssembler.Proofs.Lowering.Termination

/-!
# The names that scripts remember

A script is changed in place: by hashing names, by setting its namespace, by lowering functions for
it.  Each of these may fail, and a failure of lowering comes after names were hashed.  Whatever is done
to a script, one operation after the other, what it remembers stays `Sound`, and no operation takes
back what is remembered (`remembered_names`).
-/

namespace GscAssembler

open Code (ScriptFunction)
open Control (addFunction_eq_ok except_bind_eq_ok foldlM_add_eq_ok lowerFunction_eq parametersOf
  startOf_eq_ok starts_of_buildScript)
open Lowering (Leaves MacroTable buildScript lowerBody lowerFunction macrosOf)
open Name (Registry)
open SyntaxTree (Node)

namespace Script

/-! ## Operations in place -/

/-- What changes a script in place, and may fail after it did. -/
abbrev InPlace := ExceptT CompileError (StateM Script)

namespace InPlace

/-- Remembers a name that is no literal under its identifier hash. -/
def hashName (name : String) : InPlace UInt32 := do
  let hash := Name.identifierHash (← get).target.revision name
  modify fun s => { s with names := s.names.remember hash.toUInt64 name }
  return hash

/-- The 32-bit hash of a name, which the script remembers. -/
def hash (name : String) : InPlace UInt32 := do
  match Name.literal? (← get).target.revision name with
  | some value =>
      if value.toNat < 0x100000000 then return value.toUInt32 else throw (.badHash name)
  | none => hashName name

/-- The 64-bit hash of a name, which the script remembers. -/
def hash64 (name : String) : InPlace UInt64 := do
  let revision := (← get).target.revision
  match Name.literal? revision name, revision with
  | some value, .legacy =>
      if 0x100000000 ≤ value.toNat then throw (.badHash name) else return value
  | some value, .rev36 => return value
  | none, .legacy => return (← hashName name).toUInt64
  | none, .rev36 =>
      let hash := Name.pathHash name
      modify fun s => { s with names := s.names.remember hash name }
      return hash

/-- Sets the namespace of the script. -/
def setNamespace (name : String) : InPlace Unit := do
  let hash ← hash name
  modify fun s => { s with namespaceHash := hash }

end InPlace

/-- The answer of an operation and the script it leaves, which is the old one if it fails. -/
def keeping {α : Type} (s : Script) (result : Except CompileError (α × Script)) :
    Except CompileError α × Script :=
  match result with
  | .ok (a, s') => (.ok a, s')
  | .error e => (.error e, s)

theorem run_get_bind {α : Type} (s : Script) (f : Script → InPlace α) :
    (get >>= f).run.run s = (f s).run.run s :=
  rfl

theorem run_hash (s : Script) (name : String) :
    (InPlace.hash name).run.run s = s.keeping (s.hash name) := by
  rw [InPlace.hash, run_get_bind]
  unfold Script.hash Registry.hash
  cases Name.literal? s.target.revision name with
  | none => rfl
  | some value =>
      dsimp only
      split <;> rfl

theorem run_hash64 (s : Script) (name : String) :
    (InPlace.hash64 name).run.run s = s.keeping (s.hash64 name) := by
  rw [InPlace.hash64, run_get_bind]
  unfold Script.hash64 Registry.hash64
  dsimp only
  cases hname : Name.literal? s.target.revision name with
  | none =>
      cases hrevision : s.target.revision with
      | legacy =>
          change (Except.ok (Name.identifierHash s.target.revision name).toUInt64, _) = _
          rw [hrevision]
          rfl
      | rev36 => rfl
  | some value =>
      cases s.target.revision with
      | legacy =>
          simp only [true_and]
          split <;> rfl
      | rev36 => rfl

theorem run_bind_of_eq_ok {α β : Type} {x : InPlace α} {f : α → InPlace β} {s s' : Script} {a : α}
    (h : x.run.run s = (.ok a, s')) : (x >>= f).run.run s = (f a).run.run s' := by
  change (x.run.run s >>= fun r => (ExceptT.bindCont f r.1).run r.2) = _
  rw [h]
  rfl

theorem run_bind_of_eq_error {α β : Type} {x : InPlace α} {f : α → InPlace β} {s s' : Script}
    {e : CompileError} (h : x.run.run s = (.error e, s')) :
    (x >>= f).run.run s = (.error e, s') := by
  change (x.run.run s >>= fun r => (ExceptT.bindCont f r.1).run r.2) = _
  rw [h]
  rfl

theorem run_setNamespace (s : Script) (name : String) :
    (InPlace.setNamespace name).run.run s =
      s.keeping ((s.setNamespace name).map fun s' => ((), s')) := by
  have hhash := run_hash s name
  unfold InPlace.setNamespace Script.setNamespace
  cases hresult : s.hash name with
  | error e =>
      rw [hresult] at hhash
      exact run_bind_of_eq_error hhash
  | ok r =>
      rw [hresult] at hhash
      exact run_bind_of_eq_ok hhash

/-! ## One operation after the other -/

/-- What a script may become by one operation, whether that succeeds or fails. -/
inductive Becomes : Script → Script → Prop where
  /-- A name is hashed. -/
  | hash {s : Script} (name : String) : Becomes s ((InPlace.hash name).run.run s).2
  /-- A path or canonical value is hashed. -/
  | hash64 {s : Script} (name : String) : Becomes s ((InPlace.hash64 name).run.run s).2
  /-- The namespace is set. -/
  | setNamespace {s : Script} (name : String) : Becomes s ((InPlace.setNamespace name).run.run s).2
  /-- A function is lowered. -/
  | lower {s : Script} {table : MacroTable} {parameters : List Node} {body : Node}
      {function : ScriptFunction} {outcome : Except CompileError Unit} {t : Lowering.State}
      (h : Leaves (lowerBody (macrosOf table) parameters body) ⟨s, function⟩ outcome t) :
      Becomes s t.script
  /-- Functions, included scripts or table entries come or go. -/
  | edit {s s' : Script} (h : s' = { s with
      functions := s'.functions, includes := s'.includes, tables := s'.tables }) : Becomes s s'

/-- What a script can become from its creation on. -/
def Reachable (settings : Settings) : Script → Prop :=
  Relation.ReflTransGen Becomes (create settings)

/-- A script that remembers the names of another and soundly more, and is compiled alike. -/
structure Remembers (s s' : Script) : Prop where
  /-- The settings are the same. -/
  settings : s'.settings = s.settings
  /-- No name is lost. -/
  names : s.names ≤ s'.names
  /-- What is remembered stays sound. -/
  sound : s.names.Sound s.target.revision → s'.names.Sound s.target.revision

theorem Remembers.refl (s : Script) : Remembers s s :=
  ⟨rfl, Registry.le_refl _, id⟩

theorem Remembers.trans {s₁ s₂ s₃ : Script} (h : Remembers s₁ s₂) (h' : Remembers s₂ s₃) :
    Remembers s₁ s₃ where
  settings := h'.settings.trans h.settings
  names := Registry.le_trans h.names h'.names
  sound hsound := by
    have htarget : s₂.target = s₁.target := congrArg Settings.target h.settings
    rw [← htarget]
    exact h'.sound (htarget ▸ h.sound hsound)

theorem remembers_hash {s s' : Script} {name : String} {hash : UInt32}
    (h : s.hash name = .ok (hash, s')) : Remembers s s' := by
  obtain ⟨⟨_, names⟩, hnames, heq⟩ := except_bind_eq_ok.mp h
  cases heq
  exact ⟨rfl, Registry.le_of_hash hnames, fun hsound => hsound.hash hnames⟩

theorem remembers_hash64 {s s' : Script} {name : String} {hash : UInt64}
    (h : s.hash64 name = .ok (hash, s')) : Remembers s s' := by
  obtain ⟨⟨_, names⟩, hnames, heq⟩ := except_bind_eq_ok.mp h
  cases heq
  exact ⟨rfl, Registry.le_of_hash64 hnames, fun hsound => hsound.hash64 hnames⟩

theorem remembers_setNamespace {s s' : Script} {name : String}
    (h : s.setNamespace name = .ok s') : Remembers s s' := by
  obtain ⟨⟨hash, hashed⟩, hhash, heq⟩ := except_bind_eq_ok.mp h
  cases heq
  have hhashed := remembers_hash hhash
  exact ⟨hhashed.settings, hhashed.names, hhashed.sound⟩

/-- An operation that fails leaves the script, and so it is enough to look at those that succeed. -/
theorem remembers_keeping {α : Type} {s : Script} {result : Except CompileError (α × Script)}
    (h : ∀ a s', result = .ok (a, s') → Remembers s s') : Remembers s (s.keeping result).2 := by
  cases result with
  | error e => exact .refl s
  | ok r => exact h r.1 r.2 rfl

/-- One operation. -/
theorem Becomes.remembers {s s' : Script} (h : Becomes s s') : Remembers s s' := by
  cases h with
  | hash name =>
      rw [run_hash]
      exact remembers_keeping fun _ _ => remembers_hash
  | hash64 name =>
      rw [run_hash64]
      exact remembers_keeping fun _ _ => remembers_hash64
  | setNamespace name =>
      rw [run_setNamespace]
      refine remembers_keeping fun _ s' hset => ?_
      cases hresult : s.setNamespace name with
      | error e => rw [hresult] at hset; cases hset
      | ok r =>
          rw [hresult] at hset
          cases hset
          exact remembers_setNamespace hresult
  | lower hleaves =>
      have hsettings := hleaves.settings_eq
      refine ⟨hsettings, hleaves.names_le, fun hsound => ?_⟩
      have hsound' := hleaves.names_sound hsound
      rwa [Script.target, hsettings] at hsound'
  | edit h =>
      rw [h]
      exact ⟨rfl, Registry.le_refl _, id⟩

theorem names_create_sound (settings : Settings) :
    (create settings).names.Sound settings.target.revision := by
  refine (Registry.sound_empty _).remember ?_ (Name.hashOf_identifierHash _ _)
  exact Name.literal?_eq_none 'i' rfl (by cases settings.target.revision <;> decide)

/-- One operation after the other. -/
theorem remembers_of_becomes {s s' : Script} (h : Relation.ReflTransGen Becomes s s') :
    Remembers s s' := by
  induction h with
  | refl => exact .refl s
  | tail _ hstep ih => exact ih.trans hstep.remembers

theorem Reachable.sound {settings : Settings} {s : Script} (h : Reachable settings s) :
    s.settings = settings ∧ s.names.Sound settings.target.revision := by
  have hremembers := remembers_of_becomes h
  exact ⟨hremembers.settings, hremembers.sound (names_create_sound settings)⟩

/-! ## Scripts built from trees -/

theorem becomes_of_hash {s s' : Script} {name : String} {hash : UInt32}
    (h : s.hash name = .ok (hash, s')) : Becomes s s' := by
  have hbecomes := @Becomes.hash s name
  rwa [run_hash, h] at hbecomes

theorem becomes_of_setNamespace {s s' : Script} {name : String}
    (h : s.setNamespace name = .ok s') : Becomes s s' := by
  have hbecomes := @Becomes.setNamespace s name
  rwa [run_setNamespace, h] at hbecomes

theorem becomes_of_lowerFunction {table : MacroTable} {n : Node} {f : ScriptFunction}
    {s s' : Script} (h : lowerFunction (macrosOf table) n s = .ok (f, s')) :
    Relation.ReflTransGen Becomes s s' := by
  rw [lowerFunction_eq] at h
  obtain ⟨⟨body, start⟩, hstart, h⟩ := except_bind_eq_ok.mp h
  obtain ⟨⟨_, final⟩, hrun, h⟩ := except_bind_eq_ok.mp h
  cases h
  obtain ⟨name, hash, names, -, -, hnames, rfl⟩ := startOf_eq_ok hstart
  have hhash : s.hash (Text.asciiLower name) = .ok (hash, { s with names }) := by
    rw [Script.hash, hnames]
    rfl
  refine .tail (.single (becomes_of_hash hhash)) ?_
  obtain ⟨outcome, t, hleaves⟩ := (Lowering.orderly_lowerBody table (parametersOf n) body
    ).composed.exists_leaves ⟨{ s with names }, _⟩
  have houtcome := hleaves.run_eq.symm.trans hrun
  cases outcome with
  | error e => cases houtcome
  | ok _ =>
      cases houtcome
      exact .lower hleaves

theorem becomes_of_addFunctions {table : MacroTable} (nodes : List Node) : ∀ {s s' : Script},
    nodes.foldlM (Lowering.addFunction (macrosOf table)) s = .ok s' →
      Relation.ReflTransGen Becomes s s' := by
  induction nodes with
  | nil =>
      intro s s' h
      cases h
      exact .refl
  | cons n rest ih =>
      intro s s' h
      rw [List.foldlM_cons] at h
      obtain ⟨s₁, hfirst, hrest⟩ := except_bind_eq_ok.mp h
      obtain ⟨f, lowered, hlower, rfl⟩ := addFunction_eq_ok hfirst
      exact ((becomes_of_lowerFunction hlower).tail (.edit rfl)).trans (ih hrest)

/-- The script of a tree is made by such operations. -/
theorem reachable_of_buildScript {settings : Settings} {root : Node} {s : Script}
    (h : buildScript settings root = .ok s) : Reachable settings s := by
  obtain ⟨script, hscript, h⟩ := starts_of_buildScript h
  have hstart : Reachable settings script := by
    rcases hscript with ⟨-, rfl⟩ | ⟨n, name, -, -, hset⟩
    · exact .refl
    · exact .single (becomes_of_setNamespace hset)
  obtain ⟨outline, houtline, h⟩ := except_bind_eq_ok.mp h
  obtain ⟨houtline, -, -⟩ := foldlM_add_eq_ok root.children houtline
  have hitems : Becomes script outline.script := .edit (by rw [houtline])
  exact (hstart.tail hitems).trans (becomes_of_addFunctions _ h)

/-! ## What is remembered -/

/-- What assembling an image remembers is the name of the script. -/
theorem remembers_compile {s : Script} {c : CompiledScript} (h : s.compile = .ok c) :
    ∃ s', Remembers s s' ∧ c.names = s'.names := by
  obtain ⟨⟨nameHash, s'⟩, hname, h⟩ := except_bind_eq_ok.mp h
  obtain ⟨written, -, h⟩ := except_bind_eq_ok.mp h
  cases h
  exact ⟨s', remembers_hash64 hname, rfl⟩

/-- An operation that leaves the remembered names and the namespace if it fails. -/
def FailsCleanly {α : Type} (x : InPlace α) : Prop :=
  ∀ s e s', x.run.run s = (.error e, s') →
    s'.names = s.names ∧ s'.namespaceHash = s.namespaceHash

theorem failsCleanly_of_keeping {α : Type} {x : InPlace α}
    {f : Script → Except CompileError (α × Script)} (h : ∀ s, x.run.run s = s.keeping (f s)) :
    FailsCleanly x := by
  intro s e s' hfails
  rw [h] at hfails
  cases hresult : f s with
  | error e' =>
      rw [hresult] at hfails
      cases hfails
      exact ⟨rfl, rfl⟩
  | ok r => rw [hresult] at hfails; cases hfails

end Script

open Script in
/-- Whatever is done to a script, with or without success, the texts it remembers are in lower case,
no hash literals, and under hashes of their own; nothing remembered is ever taken back or changed; and
a name that is refused changes nothing. -/
theorem remembered_names (settings : Settings) :
    (∀ s, Reachable settings s → s.names.Sound settings.target.revision) ∧
    (∀ s c, Reachable settings s → s.compile = .ok c →
      c.names.Sound settings.target.revision) ∧
    (∀ s s', Becomes s s' → s.names ≤ s'.names) ∧
    (∀ (s : Script) (c : CompiledScript), s.compile = .ok c → s.names ≤ c.names) ∧
    (∀ name, FailsCleanly (InPlace.hash name) ∧ FailsCleanly (InPlace.hash64 name) ∧
      FailsCleanly (InPlace.setNamespace name)) ∧
    (∀ root s, buildScript settings root = .ok s → Reachable settings s) := by
  refine ⟨fun s hs => hs.sound.2, fun s c hs hc => ?_, fun s s' hstep => hstep.remembers.names,
    fun s c hc => ?_, fun name => ?_, fun root s => reachable_of_buildScript⟩
  · obtain ⟨hsettings, hsound⟩ := hs.sound
    obtain ⟨s', hremembers, hnames⟩ := remembers_compile hc
    rw [hnames, ← hsettings]
    rw [← hsettings] at hsound
    exact hremembers.sound hsound
  · obtain ⟨s', hremembers, hnames⟩ := remembers_compile hc
    rw [hnames]
    exact hremembers.names
  · exact ⟨failsCleanly_of_keeping (run_hash · name), failsCleanly_of_keeping (run_hash64 · name),
      failsCleanly_of_keeping (run_setNamespace · name)⟩

/-- The script of a tree, which remembers the function that it calls, and a literal it refuses. -/
theorem remembered_names_loopScript :
    ∃ s c, Script.Reachable {} s ∧ s.compile = .ok c ∧
      c.names.text? (Name.hash32 "print").toUInt64 = some "print" ∧
      c.names.Sound .legacy ∧ s.names ≤ c.names ∧
      ∀ e s', (Script.InPlace.setNamespace "namespace_1deadbeef").run.run s = (.error e, s') →
        s'.names = s.names := by
  obtain ⟨s, c, hbuild, hcompile, -, hprint⟩ := @Control.exists_compiled_tree {} Control.loopScript
    (fun s => s.names.text? (Name.hash32 "print").toUInt64 = some "print") (by decide +kernel)
  obtain ⟨-, hcompiled, -, hkept, hfails, hbuilt⟩ := remembered_names {}
  refine ⟨s, c, hbuilt _ s hbuild, hcompile, ?_, hcompiled s c (hbuilt _ s hbuild) hcompile,
    hkept s c hcompile, fun e s' h => ((hfails _).2.2 s e s' h).1⟩
  exact hkept s c hcompile _ _ (of_decide_eq_true hprint)

end GscAssembler
