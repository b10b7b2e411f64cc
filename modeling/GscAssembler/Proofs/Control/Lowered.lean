import GscAssembler.Proofs.Control.Refinement
import GscAssembler.Proofs.Control.Resolved

/-!
# Lowered functions

The code of a lowered function is that of a structured program (`Lowered`): it starts with the
declaration of the locals and ends with the end of the function, and each instruction in between
either names what exists, or is a jump that lands on another instruction of the function.
-/

namespace GscAssembler.Control

open Code (Chain Instruction Key LoopJump Opcode ScriptFunction)
open Lowering
open Reference (Tables)
open SyntaxTree (Node)

/-! ## The instructions of a program -/

/-- Whether an instruction is a jump that lands within bounds. -/
def LandsWithin (low high : Nat) (i : Instruction) : Prop :=
  ∃ code position, i = .jump code (some (before position)) ∧
    (code = .jump ∨ code.isConditional = true) ∧ low ≤ position ∧ position ≤ high

section Members

variable {low high : Nat}

theorem landsWithin {code : Opcode} (hcode : code = .jump ∨ code.isConditional = true)
    {position : Nat} (hlow : low ≤ position) (hhigh : position ≤ high) :
    LandsWithin low high (.jump code (some (before position))) :=
  ⟨code, position, rfl, hcode, hlow, hhigh⟩

/-- Whether all known landings are within bounds. -/
def Landings.Within (landings : Landings) (low high : Nat) : Prop :=
  ∀ kind outward position, landings kind outward = some position → low ≤ position ∧ position ≤ high

theorem Landings.Within.around {landings : Landings} (h : landings.Within low high)
    {own : LoopJump → Option Nat}
    (hown : ∀ kind position, own kind = some position → low ≤ position ∧ position ≤ high) :
    (landings.around own).Within low high := by
  intro kind outward position hposition
  cases outward with
  | zero => exact hown kind position hposition
  | succ outward => exact h kind outward position hposition

/-- Whether it is known where some exits land. -/
def Known (landings : Landings) (exits : List Exit) : Prop :=
  ∀ e ∈ exits, (landings e.kind e.outward).isSome

theorem Known.left {landings : Landings} {first second : List Exit}
    (h : Known landings (first ++ second)) : Known landings first :=
  fun e he => h e (List.mem_append_left _ he)

theorem Known.right {landings : Landings} {first second : List Exit}
    (h : Known landings (first ++ second)) : Known landings second :=
  fun e he => h e (List.mem_append_right _ he)

theorem Known.inLoop {landings : Landings} {exits : List Exit}
    (h : Known landings (exits.filterMap Exit.outer?)) (next leave : Nat) :
    Known (landings.inLoop next leave) exits := by
  intro ⟨kind, outward, position⟩ he
  cases outward with
  | zero => cases kind <;> rfl
  | succ outward => exact h ⟨kind, outward, position⟩ (List.mem_filterMap.mpr ⟨_, he, rfl⟩)

theorem Known.inSwitch {landings : Landings} {exits : List Exit}
    (h : Known landings (exits.filterMap Exit.outer? ++ exits.filterMap Exit.handedOn?))
    (leave : Nat) : Known (landings.inSwitch leave) exits := by
  intro ⟨kind, outward, position⟩ he
  cases outward with
  | zero =>
      cases kind with
      | leave => rfl
      | next => exact h.right ⟨.next, 0, position⟩ (List.mem_filterMap.mpr ⟨_, he, rfl⟩)
  | succ outward => exact h.left ⟨kind, outward, position⟩ (List.mem_filterMap.mpr ⟨_, he, rfl⟩)

theorem Program.entry_bounds (p : Program) :
    ∀ position, position ≤ p.entry position ∧ p.entry position ≤ position + p.length := by
  induction p with
  | case test body rest =>
      intro position
      simp only [Program.entry, Program.length]
      omega
  | emptyCase test rest _ ih =>
      intro position
      have := ih (position + test.length + 1)
      simp only [Program.entry, Program.length]
      omega
  | _ =>
      intro position
      simp [Program.entry]

/-- The instructions of a program are its own and the jumps that connect them. -/
theorem mem_code {P : Instruction → Prop} {p : Program} :
    ∀ {landings : Landings} {position : Nat}, p.Every P → landings.Within low high →
      Known landings (p.exits position) → low ≤ position → position + p.length ≤ high →
      ∀ i ∈ p.code landings position, P i ∨ LandsWithin low high i := by
  induction p with
  | nothing => intro _ _ _ _ _ _ _ i hi; cases hi
  | instruction i =>
      intro _ _ hevery _ _ _ _ j hj
      obtain rfl := List.mem_singleton.mp hj
      exact .inl hevery
  | loopJump kind outward =>
      intro landings position _ hwithin hknown _ _ i hi
      obtain rfl := List.mem_singleton.mp hi
      obtain ⟨landing, hlanding⟩ := Option.isSome_iff_exists.mp
        (hknown ⟨kind, outward, position⟩ (List.mem_singleton.mpr rfl))
      obtain ⟨hlow, hhigh⟩ := hwithin kind outward landing hlanding
      rw [hlanding]
      exact .inr (landsWithin (.inl rfl) hlow hhigh)
  | sequence first second ihFirst ihSecond =>
      rintro landings position ⟨hfirst, hsecond⟩ hwithin hknown hlow hhigh i hi
      rw [Program.length] at hhigh
      rcases List.mem_append.mp hi with hi | hi
      · exact ihFirst hfirst hwithin hknown.left hlow (by omega) i hi
      · exact ihSecond hsecond hwithin hknown.right (by omega) (by omega) i hi
  | skip code body ih =>
      rintro landings position ⟨hcode, hbody⟩ hwithin hknown hlow hhigh i hi
      rw [Program.length] at hhigh
      rcases List.mem_cons.mp hi with rfl | hi
      · exact .inr (landsWithin (.inr hcode) (by omega) (by omega))
      · exact ih hbody hwithin hknown (by omega) (by omega) i hi
  | choose code body otherwise ihBody ihOtherwise =>
      rintro landings position ⟨hcode, hbody, hotherwise⟩ hwithin hknown hlow hhigh i hi
      rw [Program.length] at hhigh
      simp only [Program.code, List.cons_append, List.mem_cons, List.mem_append] at hi
      rcases hi with rfl | hi | rfl | hi
      · exact .inr (landsWithin (.inr hcode) (by omega) (by omega))
      · exact ihBody hbody hwithin hknown.left (by omega) (by omega) i hi
      · exact .inr (landsWithin (.inl rfl) (by omega) (by omega))
      · exact ihOtherwise hotherwise hwithin hknown.right (by omega) (by omega) i hi
  | loop start test body step tested stepped ihStart ihTest ihBody ihStep =>
      rintro landings position ⟨hstart, htest, hbody, hstep⟩ hwithin hknown hlow hhigh i hi
      rw [Program.length] at hhigh
      simp only [Program.code, List.mem_append, List.mem_singleton] at hi
      simp only [Program.exits] at hknown
      generalize hinner : position + start.length + (if tested then test.length + 1 else 0) = inner
        at hi hknown
      -- an exit of this loop lands at one of its own ends, any other where it did outside
      have hinside : (landings.inLoop (if stepped then inner + body.length else
          position + start.length) (inner + body.length + step.length + 1)).Within low high := by
        refine hwithin.around fun kind landing hlanding => ?_
        cases kind <;> cases hlanding
        · omega
        · split <;> omega
      have hknown := hknown.inLoop (if stepped then inner + body.length else
        position + start.length) (inner + body.length + step.length + 1)
      rcases hi with (((hi | hi) | hi) | hi) | rfl
      · exact ihStart hstart hinside hknown.left.left.left (by omega) (by omega) i hi
      · cases tested with
        | false => cases hi
        | true =>
            simp only [if_true] at hinner hhigh
            rcases List.mem_append.mp hi with hi | hi
            · exact ihTest htest hinside hknown.left.left.right (by omega) (by omega) i hi
            · obtain rfl := List.mem_singleton.mp hi
              exact .inr (landsWithin (.inr rfl) (by omega) (by omega))
      · exact ihBody hbody hinside hknown.left.right (by omega) (by omega) i hi
      · exact ihStep hstep hinside hknown.right (by omega) (by omega) i hi
      · exact .inr (landsWithin (.inl rfl) (by omega) (by omega))
  | switch body ih =>
      intro landings position hevery hwithin hknown hlow hhigh i hi
      rw [Program.length] at hhigh
      refine ih hevery (hwithin.around ?_) (hknown.inSwitch _) hlow hhigh i hi
      intro kind landing hlanding
      cases kind with
      | leave => cases hlanding; omega
      | next => exact hwithin .next 0 landing hlanding
  | case test body rest ihTest ihBody ihRest =>
      rintro landings position ⟨htest, hbody, hrest⟩ hwithin hknown hlow hhigh i hi
      rw [Program.length] at hhigh
      simp only [Program.code, List.mem_cons, List.mem_append] at hi
      rcases hi with (hi | rfl | hi) | hi
      · exact ihTest htest hwithin hknown.left.left (by omega) (by omega) i hi
      · exact .inr (landsWithin (.inr rfl) (by omega) (by omega))
      · exact ihBody hbody hwithin hknown.left.right (by omega) (by omega) i hi
      · exact ihRest hrest hwithin hknown.right (by omega) (by omega) i hi
  | emptyCase test rest ihTest ihRest =>
      rintro landings position ⟨htest, hrest⟩ hwithin hknown hlow hhigh i hi
      rw [Program.length] at hhigh
      simp only [Program.code, List.mem_cons, List.mem_append] at hi
      rcases hi with hi | rfl | hi
      · exact ihTest htest hwithin hknown.left (by omega) (by omega) i hi
      · obtain ⟨hle, hge⟩ := rest.entry_bounds (position + test.length + 1)
        exact .inr (landsWithin (.inr rfl) (by omega) (by omega))
      · exact ihRest hrest hwithin hknown.right (by omega) (by omega) i hi

end Members

/-! ## Functions -/

/-- Whether the code of a function is that of a structured program between the declaration of its
locals and its end. -/
structure Lowered (tables : Tables) (f : ScriptFunction) (p : Program) : Prop where
  chain : f.chain = .ofList (.locals :: (p.code .unknown 1 ++ [.op .endFunction]))
  closed : p.exits 1 = []
  named : p.Every (WellNamed f.target f.locals tables)

theorem Lowered.mono {tables tables' : Tables} (htables : tables.Extends tables')
    {f : ScriptFunction} {p : Program} (h : Lowered tables f p) : Lowered tables' f p :=
  ⟨h.chain, h.closed, h.named.mono fun _ => .mono (fun _ h => h) htables⟩

/-- The program of a function's code without the end of the function. -/
theorem exists_of_sketchBody {macros : SketchedMacros} {parameters : List Node} {body : Node}
    {s s' : State} {p : Program}
    (h : (sketchBody macros parameters body).run s = .ok (((), p), s')) :
    ∃ q : Program, (∀ landings position,
        p.code landings position = q.code landings position ++ [.op .endFunction]) ∧
      (∀ position, p.exits position = q.exits position) ∧
      ∀ P, p.Every P → q.Every P := by
  obtain ⟨_, a, _, _, -, h₁, rfl⟩ := exists_of_sketch_bind_eq_ok h
  obtain ⟨_, b, _, _, -, h₂, rfl⟩ := exists_of_sketch_bind_eq_ok h₁
  obtain ⟨_, c, _, _, -, h₃, rfl⟩ := exists_of_sketch_bind_eq_ok h₂
  obtain ⟨_, d, _, _, -, h₄, rfl⟩ := exists_of_sketch_bind_eq_ok h₃
  cases h₄
  refine ⟨.sequence a (.sequence b (.sequence c d)), fun landings position => ?_,
    fun position => ?_, fun P hevery => ?_⟩
  · simp [Program.code]
  · simp [Program.exits]
  · simp only [Program.Every] at hevery ⊢
    exact ⟨hevery.1, hevery.2.1, hevery.2.2.1, hevery.2.2.2.1⟩

/-- The parameters of the function of a node. -/
def parametersOf (n : Node) : List Node :=
  ((n.findChild? "parameters").map Node.children).getD []

/-- The body of the function of a node, and the state in which its code is lowered. -/
def startOf (n : Node) (script : Script) : Except CompileError (Node × State) := do
  let name := Text.asciiLower (← n.text)
  match n.findChild? "block" with
  | none => throw (n.malformed "missing function body")
  | some body =>
      requireAtMost "parameters" (parametersOf n).length maxParameters
      let (hash, script) ← script.hash name
      return (body, ⟨script, ScriptFunction.create script.target name hash script.namespaceHash
        (UInt8.ofNat (parametersOf n).length) (exportFlags n)⟩)

theorem startOf_eq_ok {n body : Node} {script : Script} {s : State}
    (h : startOf n script = .ok (body, s)) :
    ∃ name hash names, n.text = .ok name ∧ n.findChild? "block" = some body ∧
      script.names.hash script.target.revision (Text.asciiLower name) = .ok (hash, names) ∧
      s = ⟨{ script with names }, .create script.target (Text.asciiLower name) hash
        script.namespaceHash (UInt8.ofNat (parametersOf n).length) (exportFlags n)⟩ := by
  unfold startOf at h
  obtain ⟨name, hname, h⟩ := except_bind_eq_ok.mp h
  cases hbody : n.findChild? "block" with
  | none => rw [hbody] at h; cases h
  | some block =>
      rw [hbody] at h
      obtain ⟨_, -, h⟩ := except_bind_eq_ok.mp h
      obtain ⟨⟨hash, hashed⟩, hhash, h⟩ := except_bind_eq_ok.mp h
      obtain ⟨⟨_, names⟩, hnames, heq⟩ := except_bind_eq_ok.mp hhash
      cases heq
      cases h
      exact ⟨name, hash, names, hname, rfl, hnames, rfl⟩

/-- Lowering starts with the declaration of the locals. -/
theorem startOf_withCode {n body : Node} {script : Script} {s : State}
    (h : startOf n script = .ok (body, s)) :
    s.script.target = script.target ∧ withCode s [.locals] [] = s := by
  obtain ⟨name, hash, names, -, -, -, rfl⟩ := startOf_eq_ok h
  refine ⟨rfl, ?_⟩
  simp only [withCode, ScriptFunction.create, ← Chain.ofList_nil, Chain.push_ofList]
  rfl

theorem lowerFunction_eq (macros : Macros) (n : Node) (script : Script) :
    lowerFunction macros n script = startOf n script >>= fun start =>
      lowerBody macros (parametersOf n) start.1 start.2 >>= fun r =>
        .ok (r.2.function, r.2.script) := by
  unfold lowerFunction startOf
  rw [bind_assoc]
  refine bind_congr fun name => ?_
  cases n.findChild? "block" with
  | none => rfl
  | some body => simp only [bind_assoc, pure_bind]; rfl

theorem sketchFunction_eq (macros : SketchedMacros) (n : Node) (script : Script) :
    sketchFunction macros n script = startOf n script >>= fun start =>
      (sketchBody macros (parametersOf n) start.1).run start.2 >>= fun r =>
        .ok (.sequence (.instruction .locals) r.1.2) := by
  unfold sketchFunction startOf
  rw [bind_assoc]
  refine bind_congr fun name => ?_
  cases n.findChild? "block" with
  | none => rfl
  | some body => simp only [bind_assoc, pure_bind]; rfl

section LoweredFunctions

variable {macros : Macros} {macros' : SketchedMacros} {n : Node} {script script' : Script}
  {f : ScriptFunction}

/-- Lowering a function lays out the program of its node. -/
theorem exists_of_lowerFunction (hmacros : MatchingMacros script.target macros macros')
    (h : lowerFunction macros n script = .ok (f, script')) :
    ∃ body s p s₁, startOf n script = .ok (body, s) ∧
      (sketchBody macros' (parametersOf n) body).run s = .ok (((), p), s₁) ∧ p.exits 1 = [] ∧
      f = { s₁.function with chain := .ofList (.locals :: p.code .unknown 1), scopes := [] } ∧
      script' = s₁.script := by
  rw [lowerFunction_eq] at h
  obtain ⟨⟨body, s⟩, hstart, h⟩ := except_bind_eq_ok.mp h
  obtain ⟨⟨_, s'⟩, hrun, h⟩ := except_bind_eq_ok.mp h
  cases h
  have hfollows := @follows_lowerBody _ [] _ _ hmacros (parametersOf n) body
  obtain ⟨htarget, hcode⟩ := startOf_withCode hstart
  rw [← hcode] at hrun
  obtain ⟨p, s₁, hp, -, hexits, rfl⟩ :=
    refines_of_follows hfollows s [.locals] [] _ s' htarget (by simp) hrun
  have hclosed : p.exits 1 = [] :=
    List.eq_nil_iff_forall_not_mem.mpr fun e he => Nat.not_lt_zero _ (hexits e he)
  exact ⟨body, s, p, s₁, hstart, hp, hclosed, rfl, rfl⟩

theorem consistent_startOf {body : Node} {s : State} (htables : script.tables.Indexed)
    (h : startOf n script = .ok (body, s)) : Consistent script.target s := by
  obtain ⟨name, hash, names, -, -, -, rfl⟩ := startOf_eq_ok h
  exact ⟨rfl, rfl, htables, by simp [ScriptFunction.create], by simp [ScriptFunction.create]⟩

/-- What lowering a function leaves of the script, and what it makes of the function. -/
theorem lowered_of_lowerFunction (hmacros : MatchingMacros script.target macros macros')
    (htables : script.tables.Indexed) (h : lowerFunction macros n script = .ok (f, script')) :
    (script' = { script with tables := script'.tables, names := script'.names } ∧
      script'.tables.Indexed ∧ script.tables.Extends script'.tables) ∧
    f.target = script.target ∧ ∃ p, Lowered script'.tables f p := by
  obtain ⟨body, s, p, s₁, hstart, hrun, hclosed, rfl, rfl⟩ := exists_of_lowerFunction hmacros h
  have hfollows := @follows_lowerBody _ [] _ _ hmacros (parametersOf n) body
  obtain ⟨hleaves, hnamed⟩ := resolves_of_follows hfollows (consistent_startOf htables hstart)
    (by simp) hrun
  obtain ⟨q, hcode, hexits, hevery⟩ := exists_of_sketchBody hrun
  obtain ⟨name, hash, names, -, -, -, rfl⟩ := startOf_eq_ok hstart
  refine ⟨⟨?_, hleaves.consistent.tables, hleaves.extended.tables⟩, hleaves.consistent.function,
    q, ?_, ?_, ?_⟩
  · rw [hleaves.extended.script]
  · rw [hcode]
  · rw [← hexits, hclosed]
  · rw [← hleaves.consistent.function] at hnamed
    exact hevery _ hnamed

end LoweredFunctions

end GscAssembler.Control
