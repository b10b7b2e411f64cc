import GscAssembler.Proofs.Lowering.TaskRules

/-!
# The variables that are reserved

Before a function has any code, its parameters and locals are declared, and with them the synthetic
variables of every switch and loop over an array of its body, in reading order.  What is reserved then
are the hashes of `reservedNames`, each as often as it is there, and all of them are locals.
-/

namespace GscAssembler.Lowering

open Code (ForeachLocals Instruction ScriptFunction)
open SyntaxTree (Node)

variable {c : Setting} {s s' : State}

/-! ## Declarations -/

theorem Ready.declared_mono (h : Ready c s []) {declared : List UInt32}
    (hsub : declared ⊆ c.declared) : Ready { c with declared } s [] := by
  obtain ⟨code, facts, h, hrefs⟩ := h
  exact ⟨code, facts, ⟨h.chain, h.nonempty, h.behind, h.scriptTarget, h.functionTarget, h.switchKeys,
    h.foreachKeys, fun x hx => h.declared x (hsub hx), h.annotates, h.attributed, h.known, h.marks,
    h.scopes⟩, hrefs⟩

/-- What is declared has the hash of its name, and is a local from then on. -/
theorem Ready.declare {name : String} {x : UInt32} (h : Ready c s [])
    (hrun : Lowering.declare name s = .ok (x, s')) :
    Name.hash? c.target.revision name = some x ∧
      Ready { c with declared := x :: c.declared } s' [] := by
  have hkept : Ready c s' [] := Mild.keeps h hrun
  obtain ⟨names, hnames, rfl⟩ := Control.declare_eq_ok.mp hrun
  obtain ⟨locals, hlocals, hnew, -⟩ := Control.exists_addLocal s.function x
  obtain ⟨_, _, hbefore, -⟩ := h
  rw [hbefore.scriptTarget] at hnames
  refine ⟨Name.hash?_of_hash hnames, ?_⟩
  obtain ⟨code, facts, h, hrefs⟩ := hkept
  have hdeclared : x ∈ (Control.withLocal (Control.withNames s names) x).function.locals := by
    change x ∈ (s.function.addLocal x).locals
    rw [hlocals]
    exact hnew
  exact ⟨code, facts, ⟨h.chain, h.nonempty, h.behind, h.scriptTarget, h.functionTarget, h.switchKeys,
    h.foreachKeys, List.forall_mem_cons.mpr ⟨hdeclared, h.declared⟩, h.annotates, h.attributed,
    h.known, h.marks, h.scopes⟩, hrefs⟩

instance (n : Node) : Mild (declareIdentifier n) := by
  unfold declareIdentifier
  split
  · exact inferInstanceAs (Mild ((liftM n.text : Lower String) >>= fun name =>
      declare name >>= fun _ => pure ()))
  · exact inferInstanceAs (Mild (pure () : Lower Unit))

mutual

theorem mild_declareBound : ∀ n : Node, Mild (declareBound n)
  | .mk kind text value children => by
      have := mild_declareBoundReversed children
      rw [declareBound]
      infer_instance

theorem mild_declareBoundReversed : ∀ nodes : List Node, Mild (declareBoundReversed nodes)
  | [] => by
      rw [declareBoundReversed]
      infer_instance
  | n :: rest => by
      have := mild_declareBound n
      have := mild_declareBoundReversed rest
      rw [declareBoundReversed]
      infer_instance

end

theorem mild_declareIdentifiers (nodes : List Node) : Mild (nodes.forM declareIdentifier) := by
  induction nodes with
  | nil => exact inferInstanceAs (Mild (pure () : Lower Unit))
  | cons n rest ih =>
      exact inferInstanceAs (Mild (declareIdentifier n >>= fun _ => rest.forM declareIdentifier))

/-! ## Reserving -/

/-- The variables of all constructs for which some are reserved. -/
def Reserved.variables (legacy : Bool) (r : Reserved) : List UInt32 :=
  r.switches.toList ++ r.foreaches.toList.flatMap (ForeachLocals.variables legacy)

/-- The hashes of the synthetic variables of constructs that are numbered one after the other. -/
def constructHashes (revision : Revision) (first : Nat) (constructs : List Bool) : List UInt32 :=
  ((constructs.zipIdx first).flatMap fun entry =>
    constructNames revision entry.1 entry.2).filterMap (Name.hash? revision)

theorem constructHashes_append (revision : Revision) (first : Nat) (constructs others : List Bool) :
    constructHashes revision first (constructs ++ others) =
      constructHashes revision first constructs ++
        constructHashes revision (first + constructs.length) others := by
  simp [constructHashes, List.zipIdx_append]

theorem filterMap_hash? {revision : Revision} {names : List String} {hashes : List UInt32}
    (h : List.Forall₂ (fun name hash => Name.hash? revision name = some hash) names hashes) :
    names.filterMap (Name.hash? revision) = hashes := by
  induction h with
  | nil => rfl
  | cons hname _ ih => rw [List.filterMap_cons_some hname, ih]

/-- Whether a piece of lowering reserves the variables of some constructs, and nothing else. -/
structure Reserves (c : Setting) (constructs : List Bool) (r : Reserved) (x : Lower Reserved) :
    Prop where
  /-- It does. -/
  keeps {r' : Reserved} {s s' : State} : Ready { c with declared := r.variables c.legacy } s [] →
    x s = .ok (r', s') → Ready { c with declared := r'.variables c.legacy } s' [] ∧
      r'.next = r.next + constructs.length ∧ (r'.variables c.legacy).Perm
        (r.variables c.legacy ++ constructHashes c.target.revision r.next constructs)

variable {r : Reserved}

theorem Reserves.bind {x : Lower Reserved} {y : Reserved → Lower Reserved} {first second : List Bool}
    (hx : Reserves c first r x) (hy : ∀ r, Reserves c second r (y r)) :
    Reserves c (first ++ second) r (x >>= y) where
  keeps h hrun := by
    obtain ⟨r₁, s₁, hfirst, hsecond⟩ := exists_of_attempt_bind hrun
    obtain ⟨h₁, hnext₁, hperm₁⟩ := hx.keeps h hfirst
    obtain ⟨h₂, hnext₂, hperm₂⟩ := (hy r₁).keeps h₁ hsecond
    refine ⟨h₂, by rw [hnext₂, hnext₁, List.length_append, Nat.add_assoc], ?_⟩
    rw [constructHashes_append, ← List.append_assoc, ← hnext₁]
    exact hperm₂.trans (hperm₁.append_right _)

theorem reserves_return : Reserves c [] r (pure r) where
  keeps h hrun := by
    cases hrun
    exact ⟨h, rfl, by simp [constructHashes]⟩

theorem reserves_step {x : Lower Unit} [hx : Mild x] : Reserves c [] r (do x; return r) where
  keeps h hrun := by
    obtain ⟨_, s₁, hfirst, hreturn⟩ := exists_of_attempt_bind hrun
    exact reserves_return.keeps (hx.keeps h hfirst) hreturn

theorem reserves_switch : Reserves c [true] r (reserveSwitch r) where
  keeps h hrun := by
    obtain ⟨key, s₁, hdeclare, hreturn⟩ := exists_of_attempt_bind hrun
    cases hreturn
    obtain ⟨hhash, hkey⟩ := h.declare hdeclare
    have hperm : (Reserved.variables c.legacy
        { r with next := r.next + 1, switches := r.switches.push key }).Perm
        (key :: r.variables c.legacy) := by
      simp [Reserved.variables]
    have hhashes : constructHashes c.target.revision r.next [true] = [key] :=
      filterMap_hash? (.cons hhash .nil)
    refine ⟨hkey.declared_mono hperm.subset, rfl, hperm.trans ?_⟩
    rw [hhashes]
    exact (List.perm_append_singleton key _).symm

/-- The variables of a loop over an array are declared one after the other. -/
theorem reserves_foreach : Reserves c [false] r (reserveForeach r) where
  keeps h hrun := by
    obtain ⟨array, s₁, harray, hrun⟩ := exists_of_attempt_bind hrun
    obtain ⟨legacy, s₂, hlegacy, hrun⟩ := exists_of_attempt_bind hrun
    obtain ⟨hhashArray, h₁⟩ := h.declare harray
    cases hlegacy
    rw [Holds.legacy_eq h₁] at hrun
    have hvariables (locals : ForeachLocals) : Reserved.variables c.legacy
        { r with next := r.next + 1, foreaches := r.foreaches.push locals } =
          r.variables c.legacy ++ locals.variables c.legacy := by
      simp [Reserved.variables]
    cases hrevision : c.target.revision with
    | legacy =>
        have hlegacy : c.legacy = true := by simp [Setting.legacy, Target.isLegacy, hrevision]
        rw [if_pos hlegacy] at hrun
        obtain ⟨key, s₂, hkey, hreturn⟩ := exists_of_attempt_bind hrun
        cases hreturn
        obtain ⟨hhashKey, h₂⟩ := h₁.declare hkey
        rw [hvariables]
        refine ⟨h₂.declared_mono fun x hx => ?_, rfl, List.Perm.of_eq (congrArg _ ?_)⟩
        · simp [ForeachLocals.variables, hlegacy] at hx ⊢
          tauto
        · have hnames : constructHashes .legacy r.next [false] = [array, key] :=
            filterMap_hash? (.cons (hrevision ▸ hhashArray) (.cons (hrevision ▸ hhashKey) .nil))
          rw [ForeachLocals.variables, if_pos hlegacy, hnames]
    | rev36 =>
        have hlegacy : ¬c.legacy = true := by simp [Setting.legacy, Target.isLegacy, hrevision]
        rw [if_neg hlegacy] at hrun
        obtain ⟨iterator, s₂, hiterator, hrun⟩ := exists_of_attempt_bind hrun
        obtain ⟨key, s₃, hkey, hrun⟩ := exists_of_attempt_bind hrun
        obtain ⟨nextKey, s₄, hnextKey, hreturn⟩ := exists_of_attempt_bind hrun
        cases hreturn
        obtain ⟨hhashIterator, h₂⟩ := h₁.declare hiterator
        obtain ⟨hhashKey, h₃⟩ := h₂.declare hkey
        obtain ⟨hhashNext, h₄⟩ := h₃.declare hnextKey
        rw [hvariables]
        refine ⟨h₄.declared_mono fun x hx => ?_, rfl, List.Perm.of_eq (congrArg _ ?_)⟩
        · simp [ForeachLocals.variables, hlegacy] at hx ⊢
          tauto
        · have hnames : constructHashes .rev36 r.next [false] = [array, iterator, key, nextKey] :=
            filterMap_hash? (.cons (hrevision ▸ hhashArray) (.cons (hrevision ▸ hhashIterator)
              (.cons (hrevision ▸ hhashKey) (.cons (hrevision ▸ hhashNext) .nil))))
          rw [ForeachLocals.variables, if_neg hlegacy, hnames]

theorem reserves_for (n : Node) : Reserves c (needsSwitch? n).toList r (reserveFor n r) := by
  unfold reserveFor
  split
  case h_1 hkind =>
      rw [show needsSwitch? n = none by simp [needsSwitch?, hkind]]
      cases n.children with
      | nil => exact reserves_return
      | cons child others => exact reserves_step (x := declareIdentifier child)
  case h_2 hkind =>
      have := mild_declareIdentifiers (n.children.take 1)
      rw [show needsSwitch? n = some false by simp [needsSwitch?, hkind]]
      exact reserves_foreach.bind fun _ => reserves_step
  case h_3 hkind =>
      have := mild_declareIdentifiers (n.children.take 2)
      rw [show needsSwitch? n = some false by simp [needsSwitch?, hkind]]
      exact reserves_foreach.bind fun _ => reserves_step
  case h_4 hkind =>
      rw [show needsSwitch? n = some true by simp [needsSwitch?, hkind]]
      exact reserves_switch
  case h_5 hkind =>
      rw [show needsSwitch? n = none by simp [needsSwitch?, hkind]]
      split
      · cases n.findChild? "arguments" with
        | none => exact reserves_return
        | some arguments =>
            have := mild_declareBoundReversed (arguments.children.drop 1)
            exact reserves_step
      · exact reserves_return
  case h_6 =>
      rw [show needsSwitch? n = none by unfold needsSwitch?; split <;> simp_all]
      exact reserves_return

mutual

theorem reserves_node : ∀ (n : Node) (depth : Nat) (r : Reserved),
    Reserves c ((n.preorder depth).filterMap fun entry => needsSwitch? entry.2) r (reserve n r)
  | .mk kind text value children, depth, r => by
      have hall := (reserves_for (c := c) (r := r) (.mk kind text value children)).bind
        (reserves_all children (depth + 1))
      rw [Node.preorder, List.filterMap_cons]
      cases hneeds : needsSwitch? (.mk kind text value children) <;> rw [hneeds] at hall <;> exact hall

theorem reserves_all : ∀ (nodes : List Node) (depth : Nat) (r : Reserved),
    Reserves c ((Node.preorderAll depth nodes).filterMap fun entry => needsSwitch? entry.2) r
      (reserveAll nodes r)
  | [], depth, r => reserves_return
  | n :: rest, depth, r => by
      rw [Node.preorderAll, List.filterMap_append]
      exact (reserves_node n depth r).bind (reserves_all rest depth)

end

/-! ## The start of a function -/

/-- The parameters with a default are among the script's own variables. -/
theorem Ready.declareParameters {parameters : List Node} :
    ∀ {s s' : State} {defaults : List (UInt32 × Node)}, Ready c s [] →
      Lowering.declareParameters parameters s = .ok (defaults, s') →
      Ready c s' [] ∧ ∀ p ∈ defaults, ∃ name ∈ parameters.filterMap Node.text?,
        Name.hash? c.target.revision name = some p.1 := by
  induction parameters with
  | nil =>
      intro s s' defaults h hrun
      cases hrun
      exact ⟨h, by simp⟩
  | cons parameter rest ih =>
      intro s s' defaults h hrun
      obtain ⟨name, s₁, htext, hrun⟩ := exists_of_attempt_bind hrun
      obtain ⟨hash, s₂, hdeclare, hrun⟩ := exists_of_attempt_bind hrun
      obtain ⟨others, s₃, hothers, hreturn⟩ := exists_of_attempt_bind hrun
      have htext : (liftM parameter.text : Lower String) s = .ok (name, s₁) := htext
      have h₁ : Ready c s₁ [] := Mild.keeps h htext
      obtain ⟨hhash, h₂⟩ := h₁.declare hdeclare
      obtain ⟨h₃, hrest⟩ := ih (h₂.declared_mono (List.subset_cons_self _ _)) hothers
      have hname : name ∈ parameter.text? := by
        cases hparameter : parameter.text with
        | error e =>
            rw [hparameter] at htext
            cases htext
        | ok text =>
            rw [hparameter] at htext
            cases htext
            exact text?_of_text hparameter
      have hnames : name ∈ (parameter :: rest).filterMap Node.text? :=
        List.mem_filterMap.mpr ⟨parameter, List.mem_cons_self, hname⟩
      have hold : ∀ p ∈ others, ∃ name ∈ (parameter :: rest).filterMap Node.text?,
          Name.hash? c.target.revision name = some p.1 := by
        intro p hp
        obtain ⟨other, hother, hp⟩ := hrest p hp
        refine ⟨other, ?_, hp⟩
        rw [List.filterMap_cons_some hname]
        exact List.mem_cons_of_mem _ hother
      cases hchildren : parameter.children with
      | nil =>
          rw [hchildren] at hreturn
          cases hreturn
          exact ⟨h₃, hold⟩
      | cons value more =>
          rw [hchildren] at hreturn
          cases hreturn
          exact ⟨h₃, List.forall_mem_cons.mpr ⟨⟨name, hnames, hhash⟩, hold⟩⟩

/-- The variables that are reserved are those that the switches and loops over arrays of the body
need. -/
theorem Ready.collectLocals {body : Node} {c' : Setting}
    (hc' : c' = { c with
      declared := (reservedNames c.target.revision body).filterMap (Name.hash? c.target.revision)
      switchKeys := s'.function.switchKeys
      foreachKeys := s'.function.foreachKeys })
    (h : Ready { c with declared := [], switchKeys := [], foreachKeys := [] } s [])
    (hrun : Lowering.collectLocals body s = .ok ((), s')) :
    Ready c' s' [] ∧ c'.reserved.Perm c'.declared := by
  obtain ⟨r, s₁, hreserve, hrun⟩ := exists_of_attempt_bind hrun
  have hreserves := reserves_node (c := { c with switchKeys := [], foreachKeys := [] }) body 0 {}
  obtain ⟨hr, -, hperm⟩ := hreserves.keeps h hreserve
  obtain ⟨hswitches, hforeaches⟩ := Holds.keys_eq hr
  have hkeys := (Ready.declared_mono hr hperm.symm.subset).withKeys
    (r.switches.toList ++ s₁.function.switchKeys) (r.foreaches.toList ++ s₁.function.foreachKeys)
  cases hrun
  subst hc'
  refine ⟨hkeys, ?_⟩
  simp only [Setting.reserved, hswitches, hforeaches, List.append_nil]
  exact hperm

end GscAssembler.Lowering
