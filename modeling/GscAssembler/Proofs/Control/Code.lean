import GscAssembler.Proofs.Code.GrowingChain
import GscAssembler.Proofs.Control.Program

/-!
# The code of a structured program

`Program.code` puts the instructions of a structured program one behind the other and connects them
by jumps.  Where a jump lands follows from the lengths of the programs around it, so the code of a
program is made of the codes of its parts.  Only the jumps out of a loop or switch depend on more
than the program they stand in: `Landings` tells where those go.

While a scope is open, it is not known where it will end.  The jumps that leave it, the
`Program.exits`, are then without a target, and are given one when the scope is closed.  Settling the
exits of a program gives the code it has with known landings (`settles`).
-/

namespace GscAssembler.Control

open Code (Instruction Key LoopJump Opcode)

/-- The key behind which a jump to a position lands. -/
def before (position : Nat) : Key :=
  .at (position - 1)

/-! ## Where jumps out of scopes land -/

/-- The positions on which the jumps out of the scopes around a program land, by the number of the
scope; none while that is not known. -/
abbrev Landings := LoopJump → Nat → Option Nat

namespace Landings

/-- Nothing is known. -/
def unknown : Landings := fun _ _ => none

/-- The landings inside one more scope, whose own are given. -/
def around (own : LoopJump → Option Nat) (outer : Landings) : Landings
  | kind, 0 => own kind
  | kind, outward + 1 => outer kind outward

/-- The landings inside a loop. -/
def inLoop (next leave : Nat) (outer : Landings) : Landings :=
  outer.around fun
    | .next => some next
    | .leave => some leave

/-- The landings inside a switch, which has no next round of its own. -/
def inSwitch (leave : Nat) (outer : Landings) : Landings :=
  outer.around fun
    | .next => outer .next 0
    | .leave => some leave

/-- Those of the first where they are known, else those of the second. -/
def orElse (first second : Landings) : Landings :=
  fun kind outward => (first kind outward).or (second kind outward)

theorem orElse_unknown (l : Landings) : l.orElse unknown = l := by
  funext kind outward
  exact Option.or_none

end Landings

/-! ## Code -/

namespace Program

/-- The number of instructions. -/
def length : Program → Nat
  | nothing => 0
  | instruction _ | loopJump _ _ => 1
  | sequence first second => first.length + second.length
  | skip _ body => 1 + body.length
  | choose _ body otherwise => 1 + body.length + 1 + otherwise.length
  | loop start test body step tested _ =>
      start.length + (if tested then test.length + 1 else 0) + body.length + step.length + 1
  | switch body => body.length
  | case test body rest => test.length + 1 + body.length + rest.length
  | emptyCase test rest => test.length + 1 + rest.length

/-- Where the statements of the first branch that has some start, if the program is a list of
branches at a position. -/
def entry : (position : Nat) → Program → Nat
  | position, case test _ _ => position + test.length + 1
  | position, emptyCase test rest => rest.entry (position + test.length + 1)
  | position, _ => position

/-- The instructions of a program at a position. -/
def code (landings : Landings) (position : Nat) : Program → List Instruction
  | nothing => []
  | instruction i => [i]
  | sequence first second =>
      first.code landings position ++ second.code landings (position + first.length)
  | skip code body =>
      .jump code (some (before (position + 1 + body.length))) :: body.code landings (position + 1)
  | choose code body otherwise =>
      let other := position + 1 + body.length + 1
      .jump code (some (before other)) :: body.code landings (position + 1) ++
        .jump .jump (some (before (other + otherwise.length))) :: otherwise.code landings other
  | loop start test body step tested stepped =>
      let top := position + start.length
      let inner := top + if tested then test.length + 1 else 0
      let last := inner + body.length
      let bottom := last + step.length
      let landings := landings.inLoop (if stepped then last else top) (bottom + 1)
      start.code landings position ++
        (if tested then
          test.code landings top ++ [.jump .jumpOnFalse (some (before (bottom + 1)))] else []) ++
        body.code landings inner ++ step.code landings last ++ [.jump .jump (some (before top))]
  | switch body => body.code (landings.inSwitch (position + body.length)) position
  | case test body rest =>
      let inner := position + test.length + 1
      test.code landings position ++
        .jump .jumpOnFalse (some (before (inner + body.length))) :: body.code landings inner ++
        rest.code landings (inner + body.length)
  | emptyCase test rest =>
      let next := position + test.length + 1
      test.code landings position ++
        .jump .jumpOnTrue (some (before (rest.entry next))) :: rest.code landings next
  | loopJump kind outward => [.jump .jump ((landings kind outward).map before)]

theorem length_code (p : Program) :
    ∀ landings position, (p.code landings position).length = p.length := by
  induction p with
  | nothing | instruction _ | loopJump _ _ => intro landings position; rfl
  | sequence first second ihFirst ihSecond =>
      intro landings position
      rw [code, length, List.length_append, ihFirst, ihSecond]
  | choose _ first second ihFirst ihSecond | emptyCase first second ihFirst ihSecond =>
      intro landings position
      simp only [code, length, List.length_append, List.length_cons, ihFirst, ihSecond]
      omega
  | skip _ body ih =>
      intro landings position
      rw [code, length, List.length_cons, ih, Nat.add_comm]
  | loop start test body step tested stepped ihStart ihTest ihBody ihStep =>
      intro landings position
      cases tested <;>
        simp [code, length, ihStart, ihTest, ihBody, ihStep] <;> omega
  | switch body ih => intro landings position; exact ih _ _
  | case test body rest ihTest ihBody ihRest =>
      intro landings position
      simp only [code, length, List.length_append, List.length_cons, ihTest, ihBody, ihRest]
      omega

end Program

/-! ## Jumps out of scopes -/

/-- A jump out of a scope around a program. -/
structure Exit where
  /-- Where it goes. -/
  kind : LoopJump
  /-- The number of the scope it leaves. -/
  outward : Nat
  /-- Its position. -/
  position : Nat
  deriving DecidableEq, Repr

namespace Exit

/-- The exit seen from outside of the innermost scope, if it leaves another. -/
def outer? : Exit → Option Exit
  | ⟨_, 0, _⟩ => none
  | ⟨kind, outward + 1, position⟩ => some ⟨kind, outward, position⟩

/-- The exit that a switch hands on to the scope around it. -/
def handedOn? (e : Exit) : Option Exit :=
  if e.kind = .next ∧ e.outward = 0 then some e else none

/-- Gives a jump its target, if that is known. -/
def settle (landings : Landings) (items : List Instruction) (e : Exit) : List Instruction :=
  match landings e.kind e.outward with
  | some position => items.modify e.position (Instruction.retarget (before position))
  | none => items

theorem foldl_settle_outer? (landings : Landings) (exits : List Exit) :
    ∀ items, (exits.filterMap outer?).foldl (settle landings) items =
      exits.foldl (settle (landings.around fun _ => none)) items := by
  induction exits with
  | nil => intro items; rfl
  | cons e rest ih =>
      intro items
      obtain ⟨kind, outward, position⟩ := e
      cases outward <;> exact ih _

theorem foldl_settle_handedOn? (landings : Landings) (exits : List Exit) :
    ∀ items, (exits.filterMap handedOn?).foldl (settle landings) items =
      exits.foldl (settle (Landings.unknown.around fun
        | .next => landings .next 0
        | .leave => none)) items := by
  induction exits with
  | nil => intro items; rfl
  | cons e rest ih =>
      intro items
      obtain ⟨kind, outward, position⟩ := e
      cases kind <;> cases outward <;> exact ih _

end Exit

/-- The jumps out of the scopes around a program at a position. -/
def Program.exits (position : Nat) : Program → List Exit
  | nothing | instruction _ => []
  | sequence first second => first.exits position ++ second.exits (position + first.length)
  | skip _ body => body.exits (position + 1)
  | choose _ body otherwise =>
      body.exits (position + 1) ++ otherwise.exits (position + 1 + body.length + 1)
  | loop start test body step tested _ =>
      let top := position + start.length
      let inner := top + if tested then test.length + 1 else 0
      (start.exits position ++ (if tested then test.exits top else []) ++ body.exits inner ++
        step.exits (inner + body.length)).filterMap Exit.outer?
  | switch body =>
      (body.exits position).filterMap Exit.outer? ++ (body.exits position).filterMap Exit.handedOn?
  | case test body rest =>
      let inner := position + test.length + 1
      test.exits position ++ body.exits inner ++ rest.exits (inner + body.length)
  | emptyCase test rest => test.exits position ++ rest.exits (position + test.length + 1)
  | loopJump kind outward => [⟨kind, outward, position⟩]

/-! ## Loops -/

namespace Program

/-- The parts of a loop at a position one behind the other, with the jumps that connect them. -/
def lineUp (position : Nat) (start test body step : Program) (tested : Bool) : Program :=
  let top := position + start.length
  let inner := top + if tested then test.length + 1 else 0
  let exit := Instruction.jump .jumpOnFalse (some (before (inner + body.length + step.length + 1)))
  let testing := if tested then sequence test (instruction exit) else nothing
  sequence (sequence (sequence (sequence start testing) body) step)
    (instruction (.jump .jump (some (before top))))

variable (start test body step : Program) (tested stepped : Bool)

theorem code_loop (landings : Landings) (position : Nat) :
    (loop start test body step tested stepped).code landings position =
      (lineUp position start test body step tested).code
        (let inner := position + start.length + if tested then test.length + 1 else 0
        landings.inLoop (if stepped then inner + body.length else position + start.length)
          (inner + body.length + step.length + 1)) position := by
  cases tested <;> simp [lineUp, code, length, Nat.add_assoc]

theorem exits_loop (position : Nat) :
    (loop start test body step tested stepped).exits position =
      ((lineUp position start test body step tested).exits position).filterMap Exit.outer? := by
  cases tested <;> simp [lineUp, exits, length, Nat.add_assoc]

end Program

/-! ## Settling -/

section Settling

theorem modify_append_cons {α : Type} (pre : List α) (x : α) (post : List α) (f : α → α) :
    (pre ++ x :: post).modify pre.length f = pre ++ f x :: post := by
  induction pre with
  | nil => rfl
  | cons y pre ih => simpa using ih

/-- Whether settling the exits of a program gives it the code of the landings they are settled with,
wherever the code stands. -/
def Settles (p : Program) : Prop :=
  ∀ (landings known : Landings) (pre post : List Instruction),
    (p.exits pre.length).foldl (Exit.settle landings) (pre ++ (p.code known pre.length ++ post)) =
      pre ++ (p.code (landings.orElse known) pre.length ++ post)

variable {p : Program}

theorem Settles.foldl_eq (h : Settles p) {landings : Landings} (known : Landings) {position : Nat}
    {items : List Instruction} (pre post : List Instruction)
    (hitems : items = pre ++ (p.code known position ++ post)) (hposition : pre.length = position) :
    (p.exits position).foldl (Exit.settle landings) items =
      pre ++ (p.code (landings.orElse known) position ++ post) := by
  subst hitems hposition
  exact h landings known pre post

theorem settles_instruction (i : Instruction) : Settles (.instruction i) := by
  intro landings known pre post
  rfl

theorem Settles.sequence {first second : Program} (hfirst : Settles first)
    (hsecond : Settles second) : Settles (.sequence first second) := by
  intro landings known pre post
  rw [Program.exits, List.foldl_append,
    hfirst.foldl_eq known pre (second.code known (pre.length + first.length) ++ post)
      (by simp [Program.code]) rfl,
    hsecond.foldl_eq known (pre ++ first.code (landings.orElse known) pre.length) post
      (by simp) (by simp [Program.length_code])]
  simp [Program.code]

theorem settles_lineUp {start test body step : Program} {tested : Bool} (hstart : Settles start)
    (htest : Settles test) (hbody : Settles body) (hstep : Settles step) (position : Nat) :
    Settles (.lineUp position start test body step tested) := by
  refine .sequence (.sequence (.sequence (.sequence hstart ?_) hbody) hstep) (settles_instruction _)
  cases tested with
  | false => intro landings known pre post; rfl
  | true => exact .sequence htest (settles_instruction _)

theorem Landings.orElse_inLoop (landings known : Landings) (next leave : Nat) :
    (landings.around fun _ => none).orElse (known.inLoop next leave) =
      (landings.orElse known).inLoop next leave := by
  funext kind outward
  cases outward <;> rfl

theorem settles_loop {start test body step : Program} {tested stepped : Bool}
    (hstart : Settles start) (htest : Settles test) (hbody : Settles body) (hstep : Settles step) :
    Settles (.loop start test body step tested stepped) := by
  intro landings known pre post
  rw [Program.exits_loop, Exit.foldl_settle_outer?, Program.code_loop, Program.code_loop,
    (settles_lineUp hstart htest hbody hstep pre.length).foldl_eq _ pre post rfl rfl,
    Landings.orElse_inLoop]

theorem settles_switch {body : Program} (hbody : Settles body) : Settles (.switch body) := by
  intro landings known pre post
  have hlandings : (Landings.unknown.around fun
      | .next => landings .next 0
      | .leave => none).orElse ((landings.around fun _ => none).orElse
        (known.inSwitch (pre.length + body.length))) =
      (landings.orElse known).inSwitch (pre.length + body.length) := by
    funext kind outward
    cases outward with
    | zero => cases kind <;> rfl
    | succ outward => rfl
  simp only [Program.exits, Program.code, List.foldl_append, Exit.foldl_settle_outer?,
    Exit.foldl_settle_handedOn?]
  rw [hbody.foldl_eq (known.inSwitch (pre.length + body.length)) pre post rfl rfl,
    hbody.foldl_eq _ pre post rfl rfl, hlandings]

theorem settles (p : Program) : Settles p := by
  induction p with
  | nothing | instruction _ => intro landings known pre post; rfl
  | loopJump kind outward =>
      intro landings known pre post
      cases hlanding : landings kind outward with
      | none => simp [Program.exits, Program.code, Exit.settle, Landings.orElse, hlanding]
      | some landing =>
          simp only [Program.exits, Program.code, List.foldl_cons, List.foldl_nil, Exit.settle,
            hlanding, Landings.orElse, List.cons_append, List.nil_append, modify_append_cons]
          rfl
  | sequence first second ihFirst ihSecond => exact ihFirst.sequence ihSecond
  | skip code body ih =>
      intro landings known pre post
      rw [Program.exits, ih.foldl_eq known
        (pre ++ [.jump code (some (before (pre.length + 1 + body.length)))]) post
        (by simp [Program.code]) (by simp)]
      simp [Program.code]
  | choose code body otherwise ihBody ihOtherwise =>
      intro landings known pre post
      simp only [Program.exits, Program.code, List.foldl_append]
      generalize hother : pre.length + 1 + body.length + 1 = other
      generalize Instruction.jump code (some (before other)) = skip
      generalize Instruction.jump .jump (some (before (other + otherwise.length))) = done
      -- each part is settled between what stands before it, settled already, and what follows
      rw [ihBody.foldl_eq known (pre ++ [skip]) (done :: otherwise.code known other ++ post)
          (by simp) (by simp),
        ihOtherwise.foldl_eq known
          (pre ++ skip :: body.code (landings.orElse known) (pre.length + 1) ++ [done]) post
          (by simp) (by simp [Program.length_code]; omega)]
      simp
  | loop start test body step tested stepped ihStart ihTest ihBody ihStep =>
      exact settles_loop ihStart ihTest ihBody ihStep
  | switch body ih => exact settles_switch ih
  | case test body rest ihTest ihBody ihRest =>
      intro landings known pre post
      simp only [Program.exits, Program.code, List.foldl_append]
      generalize hinner : pre.length + test.length + 1 = inner
      generalize Instruction.jump .jumpOnFalse (some (before (inner + body.length))) = skip
      rw [ihTest.foldl_eq known pre
          (skip :: body.code known inner ++ rest.code known (inner + body.length) ++ post)
          (by simp) rfl,
        ihBody.foldl_eq known (pre ++ test.code (landings.orElse known) pre.length ++ [skip])
          (rest.code known (inner + body.length) ++ post) (by simp)
          (by simp [Program.length_code]; omega),
        ihRest.foldl_eq known (pre ++ test.code (landings.orElse known) pre.length ++
          skip :: body.code (landings.orElse known) inner) post (by simp)
          (by simp [Program.length_code]; omega)]
      simp
  | emptyCase test rest ihTest ihRest =>
      intro landings known pre post
      simp only [Program.exits, Program.code, List.foldl_append]
      generalize hnext : pre.length + test.length + 1 = next
      generalize Instruction.jump .jumpOnTrue (some (before (rest.entry next))) = taken
      rw [ihTest.foldl_eq known pre (taken :: rest.code known next ++ post) (by simp) rfl,
        ihRest.foldl_eq known (pre ++ test.code (landings.orElse known) pre.length ++ [taken]) post
          (by simp) (by simp [Program.length_code]; omega)]
      simp

end Settling

end GscAssembler.Control
