import GscAssembler.Proofs.Control.Built
import GscAssembler.Proofs.Lowering.QuietTasks
import GscAssembler.Proofs.Lowering.WorkStack

/-!
# What a switch lowers

A switch is lowered by its tasks (`Lowers`): some are parts of the switch, which are lowered whole, and
the others connect them.  Each connecting task puts back tasks for exactly the parts it is about, so the
parts that are lowered are known before any of them is (`Lowers.nodes_eq`).

With at most one default, these are the value of the switch, all parts of its cases in reading order,
and then those of the default.  The first default is moved behind the cases; a second one stays where it
is, and ends the switch there: what stands behind it, and the first default, is not lowered
(`switch_lowers_branches`).
-/

namespace GscAssembler

open Code (Context Key)
open SyntaxTree (Node)

namespace Lowering

variable {macros : Macros} {s s₁ s' : State} {tasks others next : List Task} {nodes more : List Node}
  {k : Continuation}

/-! ## Parts lowered by tasks -/

/-- Does tasks one after the other, and lists the nodes that are lowered on the way.  A continuation
lowers none, but puts new tasks in front. -/
inductive Lowers (macros : Macros) : State → List Task → List Node → State → Prop where
  /-- Nothing is left to do. -/
  | rest {s : State} : Lowers macros s [] [] s
  /-- Lowers a node. -/
  | node {s s₁ s' : State} {n : Node} {tasks : List Task} {nodes : List Node}
      (hnode : lowerNode macros n .plain s = .ok ((), s₁)) (hrest : Lowers macros s₁ tasks nodes s') :
      Lowers macros s (.node n .plain :: tasks) (n :: nodes) s'
  /-- Goes on with a construct. -/
  | resume {s s₁ s' : State} {k : Continuation} {next tasks : List Task} {nodes : List Node}
      (hplan : planRest k s = .ok (next, s₁)) (hrest : Lowers macros s₁ (next ++ tasks) nodes s') :
      Lowers macros s (.resume k :: tasks) nodes s'

theorem Lowers.append (h : Lowers macros s tasks nodes s₁) (h' : Lowers macros s₁ others more s') :
    Lowers macros s (tasks ++ others) (nodes ++ more) s' := by
  induction h with
  | rest => exact h'
  | node hnode _ ih => exact .node hnode (ih h')
  | resume hplan _ ih =>
      have hrest := ih h'
      rw [List.append_assoc] at hrest
      exact .resume hplan hrest

/-- Whether a continuation is one of a switch. -/
def Continuation.OfSwitch : Continuation → Prop
  | .switchStore .. | .switchCase .. | .switchTest .. | .switchEnd | .land _ => True
  | _ => False

/-- Whether a task is one of a switch: it lowers a value or statement, or goes on with the switch. -/
def Task.OfSwitch : Task → Prop
  | .node _ context => context = .plain
  | .resume k => k.OfSwitch
  | .endMacro => False

/-- The branches of a switch up to the first default. -/
def reached : List Node → List Node
  | [] => []
  | branch :: rest => if branch.is "default" then [branch] else branch :: reached rest

/-- The parts of several branches, in order. -/
def partsOf (branches : List Node) : List Node :=
  branches.flatMap Node.children

/-- The parts that a continuation of a switch is about, in order. -/
def Continuation.parts : Continuation → List Node
  | .switchStore _ branches => partsOf (reached branches)
  | .switchCase _ branches position _ => partsOf (reached (branches.drop position))
  | .switchTest _ branches position _ =>
      (branches[position]?.elim [] fun branch => branch.children.drop 1) ++
        partsOf (reached (branches.drop (position + 1)))
  | _ => []

/-- The parts that a task of a switch is about, in order. -/
def Task.parts : Task → List Node
  | .node n _ => [n]
  | .resume k => k.parts
  | .endMacro => []

@[simp] theorem flatMap_parts_values (nodes : List Node) :
    (Task.values nodes).flatMap Task.parts = nodes := by
  simp [Task.values, List.flatMap_map, Task.parts]

theorem ofSwitch_values_append (h : ∀ t ∈ next, t.OfSwitch) :
    ∀ t ∈ Task.values nodes ++ next, t.OfSwitch := by
  intro t ht
  rcases List.mem_append.mp ht with hvalue | hnext
  · obtain ⟨n, -, rfl⟩ := List.mem_map.mp hvalue
    rfl
  · exact h t hnext

section Steps

variable {key : UInt32} {branches : List Node} {position : Nat} {falling : List Key}

/-- A branch is lowered from its value on if it is a case, and whole if it is the default, behind which
no branch is looked at. -/
theorem parts_of_planCase
    (h : planRest (.switchCase key branches position falling) s = .ok (next, s')) :
    (∀ t ∈ next, t.OfSwitch) ∧
      next.flatMap Task.parts = partsOf (reached (branches.drop position)) := by
  rw [planRest] at h
  cases hbranch : branches[position]? with
  | none =>
      rw [hbranch] at h
      obtain ⟨_, _, -, h⟩ := exists_of_attempt_bind h
      obtain ⟨_, _, -, h⟩ := exists_of_attempt_bind h
      cases h
      have hdrop : branches.drop position = [] := List.drop_eq_nil_iff.mpr (by simpa using hbranch)
      simp [hdrop, reached, partsOf]
  | some branch =>
      rw [hbranch] at h
      have hdrop := drop_eq_cons hbranch
      by_cases hdefault : branch.is "default"
      · simp only [hdefault, if_true] at h
        obtain ⟨_, _, -, h⟩ := exists_of_attempt_bind h
        cases h
        refine ⟨ofSwitch_values_append (by simp [Task.OfSwitch, Continuation.OfSwitch]), ?_⟩
        simp [Continuation.parts, Task.parts, hdrop, reached, hdefault, partsOf]
      · -- the value goes now, and what follows it with the test that comes next
        simp only [hdefault] at h
        obtain ⟨value, _, hvalue, h⟩ := exists_of_attempt_bind h
        cases h
        cases hchildren : branch.children with
        | nil =>
            rw [Node.child, hchildren] at hvalue
            cases hvalue
        | cons first body =>
            rw [Node.child, hchildren] at hvalue
            cases hvalue
            simp [Task.OfSwitch, Continuation.OfSwitch, Continuation.parts, Task.parts, hdrop,
              reached, hdefault, partsOf, hbranch, hchildren]

/-- Behind the value of a case, its statements are lowered, and then the branches behind it. -/
theorem parts_of_planTest
    (h : planRest (.switchTest key branches position falling) s = .ok (next, s')) :
    (∀ t ∈ next, t.OfSwitch) ∧
      next.flatMap Task.parts = (Continuation.switchTest key branches position falling).parts := by
  rw [planRest, itemAt] at h
  cases hbranch : branches[position]? with
  | none =>
      rw [hbranch] at h
      cases h
  | some branch =>
      simp only [hbranch, pure_bind] at h
      obtain ⟨_, _, -, h⟩ := exists_of_attempt_bind h
      obtain ⟨_, _, -, h⟩ := exists_of_attempt_bind h
      split at h
      case isTrue hlong =>
          obtain ⟨skip, _, -, h⟩ := exists_of_attempt_bind h
          obtain ⟨_, _, -, h⟩ := exists_of_attempt_bind h
          rw [suffixFrom, if_pos hlong.le, pure_bind] at h
          cases h
          refine ⟨ofSwitch_values_append (by simp [Task.OfSwitch, Continuation.OfSwitch]), ?_⟩
          simp [Continuation.parts, Task.parts, hbranch]
      case isFalse hshort =>
          obtain ⟨taken, _, -, h⟩ := exists_of_attempt_bind h
          cases h
          have hbody : branch.children.tail = [] := by
            rw [← List.drop_one]
            exact List.drop_eq_nil_iff.mpr (Nat.not_lt.mp hshort)
          simp [Task.OfSwitch, Continuation.OfSwitch, Continuation.parts, Task.parts, hbranch, hbody]

end Steps

/-- A continuation of a switch puts back tasks of a switch, for the parts it is about. -/
theorem parts_of_planRest (hk : k.OfSwitch) (h : planRest k s = .ok (next, s')) :
    (∀ t ∈ next, t.OfSwitch) ∧ next.flatMap Task.parts = k.parts := by
  cases k with
  | switchStore key branches =>
      obtain ⟨_, _, -, h⟩ := exists_of_attempt_bind h
      cases h
      simp [Task.OfSwitch, Continuation.OfSwitch, Task.parts, Continuation.parts]
  | switchCase key branches position falling => exact parts_of_planCase h
  | switchTest key branches position falling => exact parts_of_planTest h
  | switchEnd | land =>
      obtain ⟨_, _, -, h⟩ := exists_of_attempt_bind h
      cases h
      simp [Continuation.parts]
  | _ => cases hk

/-- What is lowered are the parts that the tasks are about. -/
theorem Lowers.nodes_eq (h : Lowers macros s tasks nodes s') (htasks : ∀ t ∈ tasks, t.OfSwitch) :
    nodes = tasks.flatMap Task.parts := by
  induction h with
  | rest => rfl
  | node _ _ ih =>
      rw [ih fun t ht => htasks t (List.mem_cons_of_mem _ ht)]
      rfl
  | resume hplan _ ih =>
      obtain ⟨hnext, hparts⟩ := parts_of_planRest (htasks _ List.mem_cons_self) hplan
      have hall := ih fun t ht => (List.mem_append.mp ht).elim (hnext t)
        fun ht => htasks t (List.mem_cons_of_mem _ ht)
      rw [hall, List.flatMap_append, hparts]
      rfl

/-- Several tasks are done one after the other if each is. -/
theorem exists_lowers_of_each (heach : ∀ t ∈ tasks, ∀ {s s' : State},
      t.code macros s = .ok ((), s') → ∃ nodes, Lowers macros s [t] nodes s') :
    ∀ {s s' : State}, (forM tasks (Task.code macros) : Attempt Unit) s = .ok ((), s') →
      ∃ nodes, Lowers macros s tasks nodes s' := by
  induction tasks with
  | nil =>
      intro s s' h
      cases h
      exact ⟨[], .rest⟩
  | cons t tasks ih =>
      intro s s' h
      rw [List.forM_cons] at h
      obtain ⟨_, s₁, hfirst, htasks⟩ := exists_of_attempt_bind h
      obtain ⟨nodes, hfirst⟩ := heach t List.mem_cons_self hfirst
      obtain ⟨more, hrest⟩ := ih (fun t ht => heach t (List.mem_cons_of_mem _ ht)) htasks
      exact ⟨nodes ++ more, hfirst.append hrest⟩

section Completion

variable [∀ n context, Orderly True (.all True) (lowerNode macros n context)]

/-- What a task of a switch stands for is done by lowering parts of the switch. -/
theorem exists_lowers_task {t : Task} (ht : t.OfSwitch) (h : t.code macros s = .ok ((), s')) :
    ∃ nodes, Lowers macros s [t] nodes s' := by
  -- the tasks that a continuation puts back are smaller than itself
  induction hsize : t.size using Nat.strong_induction_on generalizing t s s' with
  | _ size ih =>
      subst hsize
      cases t with
      | node n context =>
          cases ht
          exact ⟨[n], .node (perform_eq_ok.mp h) .rest⟩
      | resume k =>
          have hplans := @plans_rest macros _ k
          rw [Task.code, hplans.code_eq] at h
          obtain ⟨next, s₁, hplan, hnext⟩ := exists_of_attempt_bind h
          obtain ⟨hof, -⟩ := parts_of_planRest ht hplan
          obtain ⟨nodes, hlowers⟩ := exists_lowers_of_each
            (fun t' ht' {s s'} h => ih _ (hplans.below hplan t' ht').1 (hof t' ht') h rfl) hnext
          rw [← List.append_nil next] at hlowers
          exact ⟨nodes, .resume hplan hlowers⟩
      | endMacro => cases ht

end Completion

/-! ## The order of branches -/

section Branches

variable {branches before between after : List Node} {first second : Node}

theorem reached_of_none (h : ∀ b ∈ branches, ¬b.is "default") : reached branches = branches := by
  induction branches with
  | nil => rfl
  | cons branch rest ih =>
      rw [reached, if_neg (h branch List.mem_cons_self),
        ih fun b hb => h b (List.mem_cons_of_mem _ hb)]

theorem reached_append_cons (h : ∀ b ∈ before, ¬b.is "default") (hfirst : first.is "default") :
    reached (before ++ first :: after) = before ++ [first] := by
  induction before with
  | nil => simp [reached, hfirst]
  | cons branch rest ih =>
      rw [List.cons_append, reached, if_neg (h branch List.mem_cons_self),
        ih fun b hb => h b (List.mem_cons_of_mem _ hb)]
      rfl

theorem defaultNodeLast_of_none (h : ∀ b ∈ branches, ¬b.is "default") :
    defaultNodeLast branches = branches := by
  have hnone : branches.findIdx? (·.is "default") = none :=
    List.findIdx?_eq_none_iff.mpr fun b hb => by simpa using h b hb
  rw [defaultNodeLast, hnone]

theorem defaultNodeLast_append_cons (h : ∀ b ∈ before, ¬b.is "default")
    (hfirst : first.is "default") :
    defaultNodeLast (before ++ first :: after) = before ++ after ++ [first] := by
  have hposition : (before ++ first :: after).findIdx? (·.is "default") = some before.length := by
    rw [List.findIdx?_append, List.findIdx?_eq_none_iff.mpr fun b hb => by simpa using h b hb]
    simp [List.findIdx?_cons, hfirst]
  rw [defaultNodeLast, hposition]
  simp [List.eraseIdx_append_of_length_le]

theorem not_case_of_default {branch : Node} (h : branch.is "default") : ¬branch.is "case" := by
  simp only [Node.is, beq_iff_eq] at h ⊢
  rw [h]
  decide

/-- Branches that are no defaults are cases. -/
theorem filter_case_of_none (hkinds : ∀ b ∈ branches, b.is "case" ∨ b.is "default")
    (h : ∀ b ∈ branches, ¬b.is "default") : branches.filter (·.is "case") = branches :=
  List.filter_eq_self.mpr fun b hb => (hkinds b hb).resolve_right (h b hb)

/-- A switch without a second default reaches all branches, the default last. -/
theorem reached_defaultNodeLast (hkinds : ∀ b ∈ branches, b.is "case" ∨ b.is "default")
    (hone : (branches.filter (·.is "default")).length ≤ 1) :
    reached (defaultNodeLast branches) =
      branches.filter (·.is "case") ++ branches.filter (·.is "default") := by
  cases hfind : branches.find? (·.is "default") with
  | none =>
      have hnone : ∀ b ∈ branches, ¬b.is "default" := by simpa using List.find?_eq_none.mp hfind
      have hdefaults : branches.filter (·.is "default") = [] := List.filter_eq_nil_iff.mpr hnone
      rw [defaultNodeLast_of_none hnone, reached_of_none hnone, filter_case_of_none hkinds hnone,
        hdefaults, List.append_nil]
  | some first =>
      obtain ⟨hfirst, before, after, rfl, hbefore⟩ := List.find?_eq_some_iff_append.mp hfind
      have hbefore : ∀ b ∈ before, ¬b.is "default" := by simpa using hbefore
      have hdefaults : (before ++ first :: after).filter (·.is "default") =
          first :: after.filter (·.is "default") := by
        simpa [hfirst] using hbefore
      have hcases : (before ++ first :: after).filter (·.is "case") =
          (before ++ after).filter (·.is "case") := by
        simp [not_case_of_default hfirst]
      rw [hdefaults] at hone ⊢
      have hafter : after.filter (·.is "default") = [] := by simpa using hone
      have hothers : ∀ b ∈ before ++ after, ¬b.is "default" :=
        List.forall_mem_append.mpr ⟨hbefore, List.filter_eq_nil_iff.mp hafter⟩
      have hkinds : ∀ b ∈ before ++ after, b.is "case" ∨ b.is "default" := fun b hb =>
        hkinds b (List.mem_append.mpr ((List.mem_append.mp hb).imp_right (List.mem_cons_of_mem _)))
      rw [hcases, hafter, filter_case_of_none hkinds hothers,
        defaultNodeLast_append_cons hbefore hfirst, reached_append_cons hothers hfirst]

/-- A second default is the last branch that a switch reaches. -/
theorem reached_of_two_defaults (hbefore : ∀ b ∈ before ++ between, ¬b.is "default")
    (hfirst : first.is "default") (hsecond : second.is "default") :
    reached (defaultNodeLast (before ++ first :: between ++ second :: after)) =
      before ++ between ++ [second] := by
  have hsplit : before ++ first :: between ++ second :: after =
      before ++ first :: (between ++ second :: after) := by simp
  rw [hsplit, defaultNodeLast_append_cons (fun b hb => hbefore b (List.mem_append_left _ hb)) hfirst]
  have hmoved : before ++ (between ++ second :: after) ++ [first] =
      (before ++ between) ++ second :: (after ++ [first]) := by simp
  rw [hmoved, reached_append_cons hbefore hsecond]

end Branches

/-! ## The whole switch -/

/-- The tasks of a switch are its value, and what goes on with its branches. -/
theorem planSwitch_eq_ok {n : Node} (h : planSwitch n s = .ok (tasks, s')) :
    ∃ value branches key, n.children = value :: branches ∧
      (∀ b ∈ branches, b.is "case" ∨ b.is "default") ∧
      tasks = [.node value .plain, .resume (.switchStore key (defaultNodeLast branches))] := by
  obtain ⟨key, _, -, h⟩ := exists_of_attempt_bind h
  obtain ⟨value, _, hvalue, h⟩ := exists_of_attempt_bind h
  cases hchildren : n.children with
  | nil =>
      rw [Node.child, hchildren] at hvalue
      cases hvalue
  | cons first branches =>
      rw [Node.child, hchildren] at hvalue
      cases hvalue
      have hsuffix : suffixFrom (value :: branches) 1 = pure branches := by simp [suffixFrom]
      rw [hchildren, hsuffix, pure_bind] at h
      cases hother : branches.find? fun b => !b.is "case" && !b.is "default" with
      | some other =>
          rw [hother] at h
          cases h
      | none =>
          rw [hother] at h
          obtain ⟨_, _, -, h⟩ := exists_of_attempt_bind h
          cases h
          refine ⟨value, branches, key, rfl, fun b hb => ?_, rfl⟩
          have := List.find?_eq_none.mp hother b hb
          by_cases hcase : b.is "case" <;> simp_all

end Lowering

open Lowering

/-- A switch with at most one default loses no code.  Lowering a switch lowers its value and then parts
of its branches, each exactly as often as it is listed.  With at most one default, these are all parts
of the cases in reading order, and then those of the default.  With more of them, it is the second that
takes the place of the default, and lowering stops there: the parts of the first and of all branches
behind the second are lost. -/
theorem switch_lowers_branches {table : MacroTable} {expanding : List String} {n : Node}
    {context : Context} {s s' : State} (hn : n.is "switchStatement")
    (h : lowerNode (macrosDuring table expanding) n context s = .ok ((), s')) :
    ∃ value branches parts tasks s₁, n.children = value :: branches ∧
      (∀ b ∈ branches, b.is "case" ∨ b.is "default") ∧
      planSwitch n s = .ok (tasks, s₁) ∧
      Lowers (macrosDuring table expanding) s₁ tasks (value :: parts) s' ∧
      ((branches.filter (·.is "default")).length ≤ 1 →
        parts = (branches.filter (·.is "case")).flatMap Node.children ++
          (branches.filter (·.is "default")).flatMap Node.children) ∧
      (∀ before first between second after,
        branches = before ++ first :: between ++ second :: after →
        (∀ b ∈ before ++ between, ¬b.is "default") → first.is "default" → second.is "default" →
        parts = (before ++ between).flatMap Node.children ++ second.children) := by
  have hkind : n.kind = "switchStatement" := eq_of_beq hn
  have hplans := @plans_node (macrosDuring table expanding) _ n context
    fun hidentifier => by simp [Node.is, hkind] at hidentifier
  have hplan : planNode n context = planSwitch n := by
    rw [planNode, hkind]
    rfl
  have hcode := congrFun hplans.code_eq s
  rw [perform_eq_ok.mpr h, hplan] at hcode
  obtain ⟨tasks, s₁, hswitch, htasks⟩ := exists_of_attempt_bind hcode.symm
  obtain ⟨value, branches, key, hchildren, hkinds, rfl⟩ := planSwitch_eq_ok hswitch
  have hof : ∀ t ∈ [Task.node value .plain,
      .resume (.switchStore key (defaultNodeLast branches))], t.OfSwitch := by
    simp [Task.OfSwitch, Continuation.OfSwitch]
  obtain ⟨nodes, hlowers⟩ := exists_lowers_of_each
    (fun t ht {_ _} hcode => exists_lowers_task (hof t ht) hcode) htasks
  have hnodes : nodes = value :: partsOf (reached (defaultNodeLast branches)) := by
    simpa [Task.parts, Continuation.parts] using hlowers.nodes_eq hof
  refine ⟨value, branches, _, _, s₁, hchildren, hkinds, hswitch, hnodes ▸ hlowers, fun hone => ?_, ?_⟩
  · rw [reached_defaultNodeLast hkinds hone, partsOf, List.flatMap_append]
  · rintro before first between second after rfl hbefore hfirst hsecond
    rw [reached_of_two_defaults hbefore hfirst hsecond, partsOf, List.flatMap_append]
    simp

/-- A literal number. -/
def numberNode (digits : String) : Node :=
  Control.leafNode "numberLiteral" digits

/-- A statement that waits for some time. -/
def waitNode (digits : String) : Node :=
  .mk "wait" none none [numberNode digits]

/-- A switch over a number. -/
def switchOver (branches : List Node) : Node :=
  .mk "switchStatement" none none (numberNode "0" :: branches)

/-- A function that has a variable for a switch. -/
def withSwitchKey : State where
  script := Script.create {}
  function := { Code.ScriptFunction.create .legacyLittle "f" 1 2 0 0 with
    locals := #[7]
    switchKeys := [7] }

/-- The default is lowered last wherever it stands, and a case may have no statements. -/
theorem switch_lowers_branches_switchOver :
    let n := switchOver [.mk "case" none none [numberNode "1"], .mk "default" none none [waitNode "2"],
      .mk "case" none none [numberNode "3", waitNode "4", waitNode "5"]]
    ∃ s' tasks s₁, lowerNode (macrosDuring [] []) n .plain withSwitchKey = .ok ((), s') ∧
      planSwitch n withSwitchKey = .ok (tasks, s₁) ∧
      Lowers (macrosDuring [] []) s₁ tasks
        [numberNode "0", numberNode "1", numberNode "3", waitNode "4", waitNode "5", waitNode "2"]
        s' := by
  intro n
  obtain ⟨⟨_, s'⟩, hlower, -⟩ := @Control.exists_of_any _
    (lowerNode (macrosDuring [] []) n .plain withSwitchKey) (fun _ => true) (by decide +kernel)
  obtain ⟨value, branches, parts, tasks, s₁, hchildren, -, hplan, hlowers, hone, -⟩ :=
    switch_lowers_branches (n := n) (by decide) hlower
  cases hchildren
  rw [hone (by decide)] at hlowers
  exact ⟨s', tasks, s₁, hlower, hplan, hlowers⟩

/-- A second default ends the switch: the code is the same without the first default and without the
case behind the second. -/
theorem second_default_ends_switch :
    let lower branches := lowerNode (macrosDuring [] []) (switchOver branches) .plain withSwitchKey
    ∃ s' s'', lower [.mk "default" none none [waitNode "1"], .mk "default" none none [waitNode "2"],
        .mk "case" none none [numberNode "3", waitNode "4"]] = .ok ((), s') ∧
      lower [.mk "default" none none [waitNode "2"]] = .ok ((), s'') ∧
      s'.function.instructions = s''.function.instructions := by
  intro lower
  have hsame : (lower [.mk "default" none none [waitNode "1"],
      .mk "default" none none [waitNode "2"],
      .mk "case" none none [numberNode "3", waitNode "4"]]).toOption.any (fun r =>
        (lower [.mk "default" none none [waitNode "2"]]).toOption.any fun r' =>
          decide (r.2.function.instructions = r'.2.function.instructions)) = true := by
    decide +kernel
  obtain ⟨⟨_, s'⟩, hlower, hsame⟩ := Control.exists_of_any hsame
  obtain ⟨⟨_, s''⟩, hlower', hsame⟩ := Control.exists_of_any hsame
  exact ⟨s', s'', hlower, hlower', of_decide_eq_true hsame⟩

end GscAssembler
