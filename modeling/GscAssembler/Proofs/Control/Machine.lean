import GscAssembler.Proofs.Control.Lowered

/-!
# Code as a machine

`execute` reads the instructions of a function as a machine.  An instruction that is not a jump is
executed and control passes to the next one; a jump goes on behind its target; a conditional jump
asks the oracle; the two instructions that end a function stop the machine.  The machine knows
nothing of loops or branches, only of keys.

The code of a structured program, wherever it lies in a function, makes the machine do what the
program does (`simulates_run`).  How the program ended tells where the machine is afterwards: behind
the code if the program came to its end, and at the landing of a jump if it left a scope.

A run that was cut off is related as well.  The fuel of a program counts rounds of loops, and the
machine makes at least one step for each round.  So if a program runs out of fuel, the machine has
made at least that many steps: with growing fuel, one run shows as much as the other.
-/

namespace GscAssembler.Control

open Code (Chain Instruction Key LoopJump Opcode)

/-! ## The machine -/

/-- Runs the instructions of a chain from a place on, for a number of steps.  The machine is `cut`
off when these are done, and comes to its end (`normal`) if there is no instruction to go on with. -/
def execute (chain : Chain Instruction) : (steps : Nat) → (place : Option Key) → Run
  | 0, _, bits => ⟨[], bits, .cut⟩
  | _ + 1, none, bits => ⟨[], bits, .normal⟩
  | steps + 1, some key, bits =>
      let passed := execute chain steps (chain.next? key)
      match chain.get? key with
      | none => ⟨[], bits, .normal⟩
      | some (.jump code target) =>
          let taken := execute chain steps (target.bind chain.next?)
          if code = .jump then taken bits else ask taken passed bits
      | some i => if stops i then ⟨[i], bits, .halted⟩ else (passed bits).after [i]

/-- Whether a result is what another one was at some earlier time. -/
def Result.Precedes (r r' : Result) : Prop :=
  (r.outcome = .cut ∧ r.trace <+: r'.trace) ∨ r = r'

namespace Result

@[simp] theorem after_nil (r : Result) : r.after [] = r := rfl

@[simp] theorem after_after (t t' : List Instruction) (r : Result) :
    (r.after t').after t = r.after (t ++ t') := by
  simp [after]

theorem andThen_nothing (r : Result) : r.andThen .nothing = r := by
  obtain ⟨trace, bits, outcome⟩ := r
  cases outcome <;> simp [andThen, after, Run.nothing]

theorem Precedes.after (t : List Instruction) {r r' : Result} (h : r.Precedes r') :
    (r.after t).Precedes (r'.after t) := by
  rcases h with ⟨hcut, hprefix⟩ | rfl
  · exact .inl ⟨hcut, (List.prefix_append_right_inj t).mpr hprefix⟩
  · exact .inr rfl

end Result

/-- With more steps, the machine goes on where it was cut off. -/
theorem execute_precedes (chain : Chain Instruction) (steps more : Nat) :
    ∀ place bits, (execute chain steps place bits).Precedes
      (execute chain (steps + more) place bits) := by
  induction steps with
  | zero => intro place bits; exact .inl ⟨rfl, List.nil_prefix⟩
  | succ steps ih =>
      intro place bits
      rw [Nat.succ_add_eq_add_succ, Nat.add_succ]
      cases place with
      | none => exact .inr rfl
      | some key =>
          simp only [execute]
          split
          · exact .inr rfl
          · -- a jump: whichever way it goes, the rest was covered by the induction
            split
            · exact ih _ _
            · cases bits with
              | nil => exact .inr rfl
              | cons bit bits => cases bit <;> exact ih _ _
          · split
            · exact .inr rfl
            · exact (ih _ _).after _

/-! ## Steps at a position -/

/-- The place of a position in code that was only appended to. -/
def place (items : List Instruction) (position : Nat) : Option Key :=
  if position < items.length then some (.at position) else none

section Steps

variable {items : List Instruction} {position : Nat}

theorem place_of_getElem? {i : Instruction} (h : items[position]? = some i) :
    place items position = some (.at position) := by
  obtain ⟨hlt, -⟩ := List.getElem?_eq_some_iff.mp h
  exact if_pos hlt

/-- A jump to a position lands there. -/
theorem next?_before (items : List Instruction) (h : 0 < position) :
    (Chain.ofList items).next? (before position) = place items position := by
  have hsucc : position - 1 + 1 = position := Nat.sub_add_cancel h
  rw [before, Chain.next?_ofList, hsucc]
  rfl

theorem execute_instruction {i : Instruction} (h : items[position]? = some i)
    (hjump : i.isJump = false) (steps : Nat) (bits : List Bool) :
    execute (.ofList items) (steps + 1) (place items position) bits =
      if stops i then ⟨[i], bits, .halted⟩
      else (execute (.ofList items) steps (place items (position + 1)) bits).after [i] := by
  rw [place_of_getElem? h]
  simp only [execute, Chain.get?_ofList, h]
  cases i with
  | jump code target => cases hjump
  | _ => rw [Chain.next?_ofList]; rfl

theorem execute_jump {target : Nat} (htarget : 0 < target)
    (h : items[position]? = some (.jump .jump (some (before target)))) (steps : Nat) :
    execute (.ofList items) (steps + 1) (place items position) =
      execute (.ofList items) steps (place items target) := by
  funext bits
  rw [place_of_getElem? h]
  simp only [execute, Chain.get?_ofList, h, if_true, Option.bind_some, next?_before items htarget]

theorem execute_branch {code : Opcode} (hcode : code.isConditional = true) {target : Nat}
    (htarget : 0 < target) (h : items[position]? = some (.jump code (some (before target))))
    (steps : Nat) :
    execute (.ofList items) (steps + 1) (place items position) =
      ask (execute (.ofList items) steps (place items target))
        (execute (.ofList items) steps (place items (position + 1))) := by
  have hne : code ≠ .jump := by
    rintro rfl
    cases hcode
  funext bits
  rw [place_of_getElem? h]
  simp only [execute, Chain.get?_ofList, h, if_neg hne, Option.bind_some,
    next?_before items htarget, Chain.next?_ofList]
  rfl

end Steps

/-! ## Code at a position -/

/-- Whether some code lies in the code of a function from a position on. -/
def CodeAt (items : List Instruction) (position : Nat) (code : List Instruction) : Prop :=
  code <+: items.drop position

namespace CodeAt

variable {items first second rest : List Instruction} {position : Nat} {i : Instruction}

theorem head (h : CodeAt items position (i :: rest)) : items[position]? = some i := by
  obtain ⟨behind, hbehind⟩ := h
  have hfirst := congrArg (·[0]?) hbehind
  simpa using hfirst.symm

theorem left (h : CodeAt items position (first ++ second)) : CodeAt items position first :=
  (List.prefix_append first second).trans h

theorem right (h : CodeAt items position (first ++ second)) {later : Nat}
    (hlater : position + first.length = later) : CodeAt items later second := by
  obtain ⟨behind, hbehind⟩ := h
  refine ⟨behind, ?_⟩
  rw [← hlater, ← List.drop_drop, ← hbehind, List.append_assoc, List.drop_left]

theorem tail (h : CodeAt items position (i :: rest)) : CodeAt items (position + 1) rest := by
  have hcons : CodeAt items position ([i] ++ rest) := h
  exact hcons.right rfl

end CodeAt

/-- Whether the code of a program lies at a position of a function, with all its jumps connected. -/
structure Fits (items : List Instruction) (landings : Landings) (position : Nat) (p : Program) :
    Prop where
  code : CodeAt items position (p.code landings position)
  plain : p.Every fun i => i.isJump = false
  known : Known landings (p.exits position)
  behind : 0 < position
  landsBehind : ∀ kind outward landing, landings kind outward = some landing → 0 < landing

namespace Fits

variable {items : List Instruction} {landings : Landings} {position : Nat}

theorem sequence {first second : Program} (h : Fits items landings position (.sequence first second)) :
    Fits items landings position first ∧
      Fits items landings (position + first.length) second := by
  have hsecond : position + (first.code landings position).length = position + first.length := by
    rw [first.length_code]
  exact ⟨⟨h.code.left, h.plain.1, h.known.left, h.behind, h.landsBehind⟩,
    ⟨h.code.right hsecond, h.plain.2, h.known.right, Nat.add_pos_left h.behind _, h.landsBehind⟩⟩

theorem skip {code : Opcode} {body : Program} (h : Fits items landings position (.skip code body)) :
    code.isConditional = true ∧
      items[position]? = some (.jump code (some (before (position + 1 + body.length)))) ∧
      Fits items landings (position + 1) body :=
  ⟨h.plain.1, h.code.head,
    ⟨h.code.tail, h.plain.2, h.known, Nat.succ_pos _, h.landsBehind⟩⟩

theorem choose {code : Opcode} {body otherwise : Program}
    (h : Fits items landings position (.choose code body otherwise)) :
    code.isConditional = true ∧
      items[position]? = some (.jump code (some (before (position + 1 + body.length + 1)))) ∧
      Fits items landings (position + 1) body ∧
      items[position + 1 + body.length]? = some (.jump .jump
        (some (before (position + 1 + body.length + 1 + otherwise.length)))) ∧
      Fits items landings (position + 1 + body.length + 1) otherwise := by
  have hinside := h.code.tail
  have hbehind := hinside.right (Nat.add_left_cancel_iff.mpr (body.length_code landings _))
  exact ⟨h.plain.1, h.code.head,
    ⟨hinside.left, h.plain.2.1, h.known.left, Nat.succ_pos _, h.landsBehind⟩, hbehind.head,
    ⟨hbehind.tail, h.plain.2.2, h.known.right, Nat.succ_pos _, h.landsBehind⟩⟩

theorem loop {start test body step : Program} {tested stepped : Bool}
    (h : Fits items landings position (.loop start test body step tested stepped))
    {top inner last bottom : Nat} (htop : position + start.length = top)
    (hinner : top + (if tested then test.length + 1 else 0) = inner)
    (hlast : inner + body.length = last) (hbottom : last + step.length = bottom)
    {inside : Landings}
    (hinside : landings.inLoop (if stepped then last else top) (bottom + 1) = inside) :
    Fits items inside position start ∧
      (tested = true → Fits items inside top test ∧
        items[top + test.length]? = some (.jump .jumpOnFalse (some (before (bottom + 1))))) ∧
      Fits items inside inner body ∧ Fits items inside last step ∧
      items[bottom]? = some (.jump .jump (some (before top))) := by
  subst htop hinner hlast hbottom
  obtain ⟨hcode, ⟨hstart, htest, hbody, hstep⟩, hknown, hbehind, hlands⟩ := h
  simp only [Program.code, hinside] at hcode
  have hknown := hinside ▸ hknown.inLoop _ _
  -- a jump that stays in the function lands behind the start of the loop
  have hlands : ∀ kind outward landing, inside kind outward = some landing → 0 < landing := by
    intro kind outward landing hlanding
    rw [← hinside] at hlanding
    cases outward with
    | zero =>
        cases kind <;> cases hlanding
        · exact Nat.succ_pos _
        · split <;> omega
    | succ outward => exact hlands kind outward landing hlanding
  have hback := hcode.right rfl
  have hstepCode := hcode.left.right rfl
  have hbodyCode := hcode.left.left.right rfl
  have htestCode := hcode.left.left.left.right rfl
  have htested : (if tested = true then test.code inside (position + start.length) ++
      [Instruction.jump .jumpOnFalse (some (before (position + start.length +
        (if tested then test.length + 1 else 0) + body.length + step.length + 1)))] else []).length =
      if tested then test.length + 1 else 0 := by
    cases tested <;> simp [test.length_code]
  simp only [List.length_append, start.length_code, body.length_code, step.length_code, htested,
    ← Nat.add_assoc] at hback hstepCode hbodyCode htestCode
  refine ⟨⟨hcode.left.left.left.left, hstart, hknown.left.left.left, hbehind, hlands⟩, ?_,
    ⟨hbodyCode, hbody, hknown.left.right, by omega, hlands⟩,
    ⟨hstepCode, hstep, hknown.right, by omega, hlands⟩, hback.head⟩
  rintro rfl
  have hexit := htestCode.right rfl
  rw [test.length_code] at hexit
  exact ⟨⟨htestCode.left, htest, hknown.left.left.right, by omega, hlands⟩, hexit.head⟩

theorem switch {body : Program} (h : Fits items landings position (.switch body)) :
    Fits items (landings.inSwitch (position + body.length)) position body where
  code := h.code
  plain := h.plain
  known := h.known.inSwitch _
  behind := h.behind
  landsBehind := by
    intro kind outward landing hlanding
    cases outward with
    | zero =>
        cases kind with
        | leave => cases hlanding; exact Nat.add_pos_left h.behind _
        | next => exact h.landsBehind .next 0 landing hlanding
    | succ outward => exact h.landsBehind kind outward landing hlanding

theorem case {test body rest : Program} (h : Fits items landings position (.case test body rest))
    {inner : Nat} (hinner : position + test.length + 1 = inner) :
    Fits items landings position test ∧
      items[position + test.length]? =
        some (.jump .jumpOnFalse (some (before (inner + body.length)))) ∧
      Fits items landings inner body ∧ Fits items landings (inner + body.length) rest := by
  subst hinner
  obtain ⟨hcode, ⟨htest, hbody, hrest⟩, hknown, hbehind, hlands⟩ := h
  simp only [Program.code, List.append_assoc] at hcode
  have hjump := hcode.right rfl
  rw [test.length_code] at hjump
  have hrestCode := hjump.tail.right rfl
  rw [body.length_code] at hrestCode
  exact ⟨⟨hcode.left, htest, hknown.left.left, hbehind, hlands⟩, hjump.head,
    ⟨hjump.tail.left, hbody, hknown.left.right, Nat.succ_pos _, hlands⟩,
    ⟨hrestCode, hrest, hknown.right, by omega, hlands⟩⟩

theorem emptyCase {test rest : Program} (h : Fits items landings position (.emptyCase test rest))
    {next : Nat} (hnext : position + test.length + 1 = next) :
    Fits items landings position test ∧
      items[position + test.length]? =
        some (.jump .jumpOnTrue (some (before (rest.entry next)))) ∧
      Fits items landings next rest := by
  subst hnext
  obtain ⟨hcode, ⟨htest, hrest⟩, hknown, hbehind, hlands⟩ := h
  have hjump := CodeAt.right hcode rfl
  rw [test.length_code] at hjump
  exact ⟨⟨hcode.left, htest, hknown.left, hbehind, hlands⟩, hjump.head,
    ⟨hjump.tail, hrest, hknown.right, Nat.succ_pos _, hlands⟩⟩

end Fits

/-! ## What the machine does with the code of a program -/

/-- Whether the machine, in a number of steps, executes a trace and comes to a position. -/
def Reaches (items : List Instruction) (steps position : Nat) (bits : List Bool)
    (trace : List Instruction) (left : List Bool) (target : Nat) : Prop :=
  ∀ more, execute (.ofList items) (steps + more) (place items position) bits =
    (execute (.ofList items) more (place items target) left).after trace

theorem Reaches.refl (items : List Instruction) (position : Nat) (bits : List Bool) :
    Reaches items 0 position bits [] bits position := by
  intro more
  rw [Nat.zero_add, Result.after_nil]

theorem Reaches.trans {items t t' : List Instruction} {n n' i j k : Nat} {b b' b'' : List Bool}
    (h : Reaches items n i b t b' j) (h' : Reaches items n' j b' t' b'' k) :
    Reaches items (n + n') i b (t ++ t') b'' k := by
  intro more
  rw [Nat.add_assoc, h, h', Result.after_after]

/-- A jump takes one step. -/
theorem reaches_jump {items : List Instruction} {position target : Nat} (htarget : 0 < target)
    (h : items[position]? = some (.jump .jump (some (before target)))) (bits : List Bool) :
    Reaches items 1 position bits [] bits target := by
  intro more
  rw [Nat.add_comm, execute_jump htarget h, Result.after_nil]

/-- Where the machine is after a program that neither ended the function nor was interrupted. -/
def Outcome.landing? (landings : Landings) (finish : Nat) : Outcome → Option Nat
  | .normal => some finish
  | .leave outward => landings .leave outward
  | .next outward => landings .next outward
  | .halted | .starved | .cut => none

/-- Whether the machine does from a position on what a run of a program does.  If the run was cut
off, the machine has made as many steps as there was fuel; and a `continue` takes a step. -/
inductive Simulates (items : List Instruction) (landings : Landings) (finish fuel position : Nat)
    (bits : List Bool) (r : Result) : Prop where
  | goes {steps target : Nat} (hlanding : r.outcome.landing? landings finish = some target)
      (hnext : ∀ outward, r.outcome = .next outward → 0 < steps)
      (h : Reaches items steps position bits r.trace r.bits target)
  | ends (steps : Nat) (hend : r.outcome = .halted ∨ r.outcome = .starved)
      (h : ∀ more, execute (.ofList items) (steps + more) (place items position) bits = r)
  | cut {steps target : Nat} (hcut : r.outcome = .cut) (hfuel : fuel ≤ steps)
      (h : Reaches items steps position bits r.trace r.bits target)

section Simulation

variable {items : List Instruction} {landings : Landings} {finish fuel position : Nat}
  {bits : List Bool} {r : Result}

theorem simulates_nothing (items : List Instruction) (landings : Landings)
    (fuel position : Nat) (bits : List Bool) :
    Simulates items landings position fuel position bits (Run.nothing bits) :=
  .goes rfl (fun _ h => by cases h) (.refl items position bits)

/-- A simulation may be preceded by steps, which count as fuel. -/
theorem Reaches.simulates {steps start fuel' : Nat} {before left : List Bool}
    {trace : List Instruction} (h : Reaches items steps start before trace left position)
    (hr : Simulates items landings finish fuel position left r) (hfuel : fuel' ≤ steps + fuel) :
    Simulates items landings finish fuel' start before (r.after trace) := by
  cases hr with
  | goes hlanding hnext hreaches =>
      exact .goes hlanding (fun outward ho => Nat.add_pos_right _ (hnext outward ho))
        (h.trans hreaches)
  | ends steps' hend hends =>
      refine .ends (steps + steps') hend fun more => ?_
      rw [Nat.add_assoc, h, hends]
  | cut hcut hsteps hreaches => exact .cut hcut (by omega) (h.trans hreaches)

/-- With another end and less fuel, if the run does not come to its end. -/
theorem Simulates.of_ne_normal {finish' fuel' : Nat}
    (h : Simulates items landings finish fuel position bits r) (hr : r.outcome ≠ .normal)
    (hfuel : fuel' ≤ fuel) : Simulates items landings finish' fuel' position bits r := by
  cases h with
  | goes hlanding hnext hreaches =>
      refine .goes ?_ hnext hreaches
      cases ho : r.outcome <;> rw [ho] at hlanding <;> first | exact hlanding | contradiction
  | ends steps hend hends => exact .ends steps hend hends
  | cut hcut hsteps hreaches => exact .cut hcut (Nat.le_trans hfuel hsteps) hreaches

/-- A run that came to its end brings the machine to the end of its code. -/
theorem Simulates.reaches (h : Simulates items landings finish fuel position bits r)
    (hr : r.outcome = .normal) :
    ∃ steps, Reaches items steps position bits r.trace r.bits finish := by
  cases h with
  | goes hlanding _ hreaches =>
      rw [hr] at hlanding
      cases hlanding
      exact ⟨_, hreaches⟩
  | ends _ hend _ => rw [hr] at hend; rcases hend with hend | hend <;> cases hend
  | cut hcut _ _ => rw [hr] at hcut; cases hcut

theorem Simulates.andThen {middle : Nat} {next : Run}
    (h : Simulates items landings middle fuel position bits r)
    (hnext : ∀ bits, Simulates items landings finish fuel middle bits (next bits)) :
    Simulates items landings finish fuel position bits (r.andThen next) := by
  by_cases hr : r.outcome = .normal
  · obtain ⟨steps, hreaches⟩ := h.reaches hr
    rw [Result.andThen, hr]
    exact hreaches.simulates (hnext r.bits) (Nat.le_add_left ..)
  · have hsame : r.andThen next = r := by
      unfold Result.andThen
      split
      · contradiction
      · rfl
    rw [hsame]
    exact h.of_ne_normal hr (Nat.le_refl _)

/-- A conditional jump asks the oracle. -/
theorem simulates_ask {code : Opcode} (hcode : code.isConditional = true) {target : Nat}
    (htarget : 0 < target) (hjump : items[position]? = some (.jump code (some (before target))))
    {taken passed : Run}
    (htaken : ∀ bits, Simulates items landings finish fuel target bits (taken bits))
    (hpassed : ∀ bits, Simulates items landings finish fuel (position + 1) bits (passed bits))
    (bits : List Bool) :
    Simulates items landings finish fuel position bits (ask taken passed bits) := by
  have hstep : ∀ more, execute (.ofList items) (1 + more) (place items position) =
      ask (execute (.ofList items) more (place items target))
        (execute (.ofList items) more (place items (position + 1))) := by
    intro more
    rw [Nat.add_comm]
    exact execute_branch hcode htarget hjump more
  cases bits with
  | nil => exact .ends 1 (.inr rfl) fun more => congrFun (hstep more) []
  | cons bit bits =>
      cases bit with
      | true =>
          have hreaches : Reaches items 1 position (true :: bits) [] bits target :=
            fun more => congrFun (hstep more) (true :: bits)
          exact hreaches.simulates (htaken bits) (Nat.le_add_left ..)
      | false =>
          have hreaches : Reaches items 1 position (false :: bits) [] bits (position + 1) :=
            fun more => congrFun (hstep more) (false :: bits)
          exact hreaches.simulates (hpassed bits) (Nat.le_add_left ..)

/-- A part of a loop.  Going on with a `continue` took a step, which is one unit of fuel. -/
theorem Simulates.inLoop {next leave middle fuel₁ fuel₂ fuel' : Nat} {normally again : Run}
    (h : Simulates items (landings.inLoop next leave) middle fuel position bits r)
    (hnormally : ∀ bits, Simulates items landings leave fuel₁ middle bits (normally bits))
    (hagain : ∀ bits, Simulates items landings leave fuel₂ next bits (again bits))
    (hfuel : fuel' ≤ fuel) (hfuel₁ : fuel' ≤ fuel₁) (hfuel₂ : fuel' ≤ fuel₂ + 1) :
    Simulates items landings leave fuel' position bits (r.inLoop normally again) := by
  obtain ⟨trace, left, outcome⟩ := r
  cases h with
  | ends steps hend hends =>
      rcases hend with rfl | rfl
      · exact .ends steps (.inl rfl) hends
      · exact .ends steps (.inr rfl) hends
  | cut hcut hsteps hreaches =>
      cases hcut
      exact .cut rfl (Nat.le_trans hfuel hsteps) hreaches
  | @goes steps _ hlanding hnext hreaches =>
      -- the scope that the part leaves is this loop or one around it
      cases outcome with
      | normal =>
          cases hlanding
          exact hreaches.simulates (hnormally left) (Nat.le_trans hfuel₁ (Nat.le_add_left ..))
      | leave outward =>
          cases outward with
          | zero =>
              cases hlanding
              exact .goes rfl (fun _ h => by cases h) hreaches
          | succ outward => exact .goes hlanding (fun _ h => by cases h) hreaches
      | next outward =>
          have hpos : 0 < steps := hnext outward rfl
          cases outward with
          | zero =>
              cases hlanding
              exact hreaches.simulates (hagain left) (by omega)
          | succ outward => exact .goes hlanding (fun _ _ => hpos) hreaches
      | halted | starved | cut => cases hlanding

/-- The inside of a switch. -/
theorem Simulates.inSwitch
    (h : Simulates items (landings.inSwitch finish) finish fuel position bits r) :
    Simulates items landings finish fuel position bits r.inSwitch := by
  obtain ⟨trace, left, outcome⟩ := r
  cases h with
  | ends steps hend hends =>
      rcases hend with rfl | rfl
      · exact .ends steps (.inl rfl) hends
      · exact .ends steps (.inr rfl) hends
  | cut hcut hsteps hreaches =>
      cases hcut
      exact .cut rfl hsteps hreaches
  | goes hlanding hnext hreaches =>
      cases outcome with
      | normal => exact .goes hlanding hnext hreaches
      | leave outward =>
          cases outward with
          | zero =>
              cases hlanding
              exact .goes rfl (fun _ h => by cases h) hreaches
          | succ outward => exact .goes hlanding (fun _ h => by cases h) hreaches
      | next outward =>
          have hpos := hnext outward rfl
          cases outward <;> exact .goes hlanding (fun _ _ => hpos) hreaches
      | halted | starved | cut => cases hlanding

/-- The rounds of a loop, whose parts lie between `top`, `last` and `bottom`. -/
theorem simulates_rounds {round step : Run} {stepped : Bool} {top last bottom fuel : Nat}
    {inside : Landings} (htop : 0 < top)
    (hinside : landings.inLoop (if stepped then last else top) (bottom + 1) = inside)
    (hround : ∀ bits, Simulates items inside last fuel top bits (round bits))
    (hstep : ∀ bits, Simulates items inside bottom fuel last bits (step bits))
    (hback : items[bottom]? = some (.jump .jump (some (before top)))) (left : Nat) :
    left ≤ fuel → ∀ atStep bits, Simulates items landings (bottom + 1) left
      (if atStep then last else top) bits (rounds round step stepped left atStep bits) := by
  subst hinside
  induction left with
  | zero => exact fun _ atStep bits => .cut rfl (Nat.le_refl 0) (.refl items _ bits)
  | succ left ih =>
      intro hleft
      have hagain := ih (by omega)
      -- the jump back to the top pays for the next round
      have hbottom : ∀ bits, Simulates items landings (bottom + 1) (left + 1) bottom bits
          (rounds round step stepped left false bits) := fun bits =>
        (reaches_jump htop hback bits).simulates (hagain false bits) (by omega)
      have hfinishing : ∀ bits, Simulates items landings (bottom + 1) (left + 1) last bits
          ((step bits).inLoop (rounds round step stepped left false)
            (rounds round step stepped left stepped)) := fun bits =>
        (hstep bits).inLoop hbottom (hagain stepped) hleft (Nat.le_refl _) (Nat.le_refl _)
      intro atStep bits
      cases atStep with
      | true => exact hfinishing bits
      | false =>
          cases stepped with
          | true =>
              exact (hround bits).inLoop hfinishing hfinishing hleft (Nat.le_refl _) (by omega)
          | false =>
              exact (hround bits).inLoop hfinishing (hagain false) hleft (Nat.le_refl _)
                (Nat.le_refl _)

end Simulation

/-- Where a run of a program starts. -/
def startAt (p : Program) (position : Nat) (entered : Bool) : Nat :=
  if entered then p.entry position else position

theorem startAt_eq {p : Program} {position : Nat} (h : p.entry position = position)
    (entered : Bool) : startAt p position entered = position := by
  cases entered
  · rfl
  · exact h

/-- The machine does with the code of a program what the program does. -/
theorem simulates_run {items : List Instruction} (fuel : Nat) (p : Program) :
    ∀ {landings : Landings} {position : Nat}, Fits items landings position p →
      ∀ entered bits, Simulates items landings (position + p.length) fuel
        (startAt p position entered) bits (p.run fuel entered bits) := by
  induction p with
  | nothing =>
      intro landings position _ entered bits
      rw [startAt_eq rfl]
      exact simulates_nothing items landings fuel position bits
  | instruction i =>
      intro landings position h entered bits
      have hstep := execute_instruction h.code.head h.plain
      rw [startAt_eq rfl]
      by_cases hstops : stops i = true
      · refine .ends 1 (.inl (by simp [Program.run, hstops])) fun more => ?_
        rw [Nat.add_comm, hstep]
        simp [Program.run, hstops]
      · have hreaches : Reaches items 1 position bits [i] bits (position + 1) := by
          intro more
          rw [Nat.add_comm, hstep, if_neg hstops]
        have hrun : (Program.instruction i).run fuel entered bits = ⟨[i], bits, .normal⟩ := by
          simp [Program.run, hstops]
        rw [hrun]
        exact .goes rfl (fun _ h => by cases h) hreaches
  | sequence first second ihFirst ihSecond =>
      intro landings position h entered bits
      obtain ⟨hfirst, hsecond⟩ := h.sequence
      rw [startAt_eq rfl, Program.length, ← Nat.add_assoc]
      exact (ihFirst hfirst false bits).andThen (ihSecond hsecond false)
  | skip code body ih =>
      intro landings position h entered bits
      obtain ⟨hcode, hjump, hbody⟩ := h.skip
      rw [startAt_eq rfl, Program.length, ← Nat.add_assoc]
      exact simulates_ask hcode (by omega) hjump (simulates_nothing items landings fuel _)
        (ih hbody false) bits
  | choose code body otherwise ihBody ihOtherwise =>
      intro landings position h entered bits
      obtain ⟨hcode, hjump, hbody, hdone, hotherwise⟩ := h.choose
      rw [startAt_eq rfl]
      simp only [Program.length, ← Nat.add_assoc]
      refine simulates_ask hcode (by omega) hjump (ihOtherwise hotherwise false) ?_ bits
      -- the body is followed by the jump over the other program
      intro bits
      have hdone : ∀ bits, Simulates items landings
          (position + 1 + body.length + 1 + otherwise.length) fuel (position + 1 + body.length) bits
          (Run.nothing bits) := fun bits =>
        (reaches_jump (by omega) hdone bits).simulates
          (simulates_nothing items landings fuel _ bits) (Nat.le_add_left ..)
      rw [← Result.andThen_nothing (body.run fuel false bits)]
      exact (ihBody hbody false bits).andThen hdone
  | loop start test body step tested stepped ihStart ihTest ihBody ihStep =>
      intro landings position h entered bits
      generalize htop : position + start.length = top
      generalize hinner : top + (if tested then test.length + 1 else 0) = inner
      generalize hlast : inner + body.length = last
      generalize hbottom : last + step.length = bottom
      generalize hinside : landings.inLoop (if stepped then last else top) (bottom + 1) = inside
      obtain ⟨hstart, htest, hbody, hstep, hback⟩ := h.loop htop hinner hlast hbottom hinside
      have hround : ∀ bits, Simulates items inside last fuel top bits
          (if tested then (test.run fuel false bits).andThen
            (ask (fun bits => ⟨[], bits, .leave 0⟩) (body.run fuel false))
          else body.run fuel false bits) := by
        intro bits
        have hbody := ihBody hbody false
        rw [hlast] at hbody
        cases tested with
        | false =>
            obtain rfl : top = inner := hinner
            exact hbody bits
        | true =>
            obtain ⟨htest, hexit⟩ := htest rfl
            obtain rfl : top + test.length + 1 = inner := hinner
            apply (ihTest htest false bits).andThen
            apply simulates_ask rfl (Nat.succ_pos _) hexit _ hbody
            intro bits
            have hleave : inside .leave 0 = some (bottom + 1) := by rw [← hinside]; rfl
            exact .goes hleave (fun _ h => by cases h) (.refl items _ bits)
      have hbehind : 0 < top := htop ▸ Nat.add_pos_left h.behind _
      have hagain := simulates_rounds hbehind hinside hround (hbottom ▸ ihStep hstep false) hback fuel
        (Nat.le_refl _)
      have hfinish : position + (Program.loop start test body step tested stepped).length =
          bottom + 1 := by
        simp only [Program.length]
        omega
      rw [startAt_eq rfl, hfinish]
      have hstart := ihStart hstart false bits
      rw [htop, ← hinside] at hstart
      exact hstart.inLoop (hagain false) (hagain stepped) (Nat.le_refl _) (Nat.le_refl _)
        (Nat.le_succ _)
  | switch body ih =>
      intro landings position h entered bits
      rw [startAt_eq rfl]
      exact (ih h.switch false bits).inSwitch
  | case test body rest ihTest ihBody ihRest =>
      intro landings position h entered bits
      obtain ⟨htest, hjump, hbody, hrest⟩ := h.case rfl
      have htaken : ∀ bits, Simulates items landings
          (position + test.length + 1 + body.length + rest.length) fuel (position + test.length + 1)
          bits ((body.run fuel false bits).andThen (rest.run fuel false)) := fun bits =>
        (ihBody hbody false bits).andThen (ihRest hrest false)
      simp only [Program.length, ← Nat.add_assoc]
      cases entered with
      | true => exact htaken bits
      | false =>
          exact (ihTest htest false bits).andThen
            (simulates_ask rfl (by omega) hjump (ihRest hrest false) htaken)
  | emptyCase test rest ihTest ihRest =>
      intro landings position h entered bits
      obtain ⟨htest, hjump, hrest⟩ := h.emptyCase rfl
      simp only [Program.length, ← Nat.add_assoc]
      cases entered with
      | true => exact ihRest hrest true bits
      | false =>
          have hentry := (rest.entry_bounds (position + test.length + 1)).1
          exact (ihTest htest false bits).andThen
            (simulates_ask rfl (by omega) hjump (ihRest hrest true) (ihRest hrest false))
  | loopJump kind outward =>
      intro landings position h entered bits
      obtain ⟨target, htarget⟩ := Option.isSome_iff_exists.mp
        (h.known ⟨kind, outward, position⟩ (List.mem_singleton.mpr rfl))
      have hjump : items[position]? = some (.jump .jump (some (before target))) := by
        have hhead := h.code.head
        rwa [htarget] at hhead
      have hreaches := reaches_jump (h.landsBehind kind outward target htarget) hjump bits
      rw [startAt_eq rfl]
      cases kind <;> exact .goes htarget (fun _ _ => Nat.one_pos) hreaches

end GscAssembler.Control
