import GscAssembler.Proofs.Code.Edits

/-!
# Where breaks and continues go

A `break` or `continue` waits in the scope it leaves until that scope is closed; a scope without a header
hands its continues on to the scope around it.  Here this is compared with a log that only writes down
what happens: which scopes are open, how each was closed, and for every such jump the scopes that were
around it when it was emitted, from the one that it is about outward.

`LoopLog.fate` reads off the log what is to become of a jump.  `Tracks` is the invariant: what waits in an
open scope is what the log says waits for it, and every other jump has the target that the log gives it.
One edit keeps it (`Tracks.edit`), and so does any number of them (`Tracks.edits`).
-/

namespace GscAssembler.Code

/-! ## The log -/

/-- A jump out of a loop, or to its next round, when it was emitted. -/
structure EmittedJump where
  /-- The jump instruction. -/
  key : Key
  /-- Where it goes. -/
  kind : LoopJump
  /-- The scopes that were open, from the one that the jump is about outward. -/
  scopes : List Nat

/-- The jump as it waits in a scope. -/
def EmittedJump.pending (j : EmittedJump) : PendingJump :=
  ⟨j.kind, j.key⟩

/-- What happened to the scopes of a function.  They are numbered in the order they were opened. -/
structure LoopLog where
  /-- The number of scopes that were opened. -/
  count : Nat := 0
  /-- The open scopes, the innermost first. -/
  opened : List Nat := []
  /-- The header and the footer that a scope was closed with. -/
  closing : Nat → Option (Option Key × Key) := fun _ => none
  /-- The jumps that were emitted. -/
  jumps : List EmittedJump := []

/-- What becomes of a jump. -/
inductive Fate where
  /-- It waits for a scope to be closed. -/
  | waits (scope : Nat)
  /-- It lands behind an instruction. -/
  | lands (after : Key)
  /-- No scope is left that could tell. -/
  | lost
  deriving DecidableEq, Repr

namespace Fate

/-- The target of a jump with this fate. -/
def target? : Fate → Option Key
  | lands after => some after
  | waits _ | lost => none

/-- What becomes of a jump that is about the first of some scopes, the others being around it, if each
scope was closed so or is still open.  A break gets the footer of the first scope, a continue its header,
or else the header of the nearest scope around it that has one. -/
def of (closing : Nat → Option (Option Key × Key)) (kind : LoopJump) : List Nat → Fate
  | [] => .lost
  | scope :: outer =>
      match closing scope, kind with
      | none, _ => .waits scope
      | some (_, footer), .leave => .lands footer
      | some (some header, _), .next => .lands header
      | some (none, _), .next => of closing kind outer

end Fate

namespace LoopLog

/-- What becomes of a jump. -/
def fate (log : LoopLog) (j : EmittedJump) : Fate :=
  .of log.closing j.kind j.scopes

/-- The jumps that wait for a scope to be closed. -/
def waiting (log : LoopLog) (scope : Nat) : List EmittedJump :=
  log.jumps.filter fun j => log.fate j = .waits scope

/-- The log after a scope was closed that has the scopes `outer` around it. -/
def closed (log : LoopLog) (scope : Nat) (outer : List Nat) (header : Option Key) (footer : Key) :
    LoopLog :=
  { log with
    opened := outer
    closing := Function.update log.closing scope (some (header, footer)) }

/-- The log after the innermost open scope was closed, if there is one. -/
def close (log : LoopLog) (header : Option Key) (footer : Key) : LoopLog :=
  match log.opened with
  | [] => log
  | scope :: outer => log.closed scope outer header footer

/-- The log after an edit of a function. -/
def note (f : ScriptFunction) (log : LoopLog) : Edit → LoopLog
  | .enterLoop => { log with count := log.count + 1, opened := log.count :: log.opened }
  | .loopJump kind levels =>
      match f.addLoopJump kind levels with
      | .ok (key, _) =>
          { log with jumps := ⟨key, kind, log.opened.drop (max levels 1 - 1)⟩ :: log.jumps }
      | .error _ => log
  | .exitLoop header footer => log.close header footer
  | _ => log

/-- The log after several edits of a function. -/
def notes : ScriptFunction → LoopLog → List Edit → LoopLog
  | _, log, [] => log
  | f, log, e :: changes => notes (f.edit e) (log.note f e) changes

end LoopLog

/-! ## Settling jumps -/

/-- Where a jump lands when its scope is closed, if it is not handed on. -/
def LoopJump.landing (header : Option Key) (footer : Key) : LoopJump → Option Key
  | .leave => some footer
  | .next => header

namespace ScriptFunction

theorem get?_setTarget (f : ScriptFunction) (jump after key : Key) :
    (f.setTarget jump after).get? key =
      if key = jump then (f.get? key).map (Instruction.retarget after) else f.get? key := by
  simp only [get?, Chain.get?, setTarget, Chain.modify,
    Chain.slot?_modifySlot (Chain.mild_value (Instruction.retarget after))]
  split
  · cases f.chain.slot? key <;> rfl
  · rfl

section Settle

variable (header : Option Key) (footer : Key)

/-- Settling jumps lets all other instructions be as they are. -/
theorem get?_settle_of_notMem (pending : List PendingJump) (f : ScriptFunction) {key : Key}
    (h : key ∉ pending.map (·.jump)) : (settle header footer pending f).2.get? key = f.get? key := by
  fun_induction ScriptFunction.settle header footer pending f with
  | case1 header f => rfl
  | case2 header jump rest f ih =>
      obtain ⟨hne, hrest⟩ := not_or.mp (List.mem_cons.not.mp h)
      rw [ih hrest, get?_setTarget, if_neg hne]
  | case3 jump rest f header ih =>
      obtain ⟨hne, hrest⟩ := not_or.mp (List.mem_cons.not.mp h)
      rw [ih hrest, get?_setTarget, if_neg hne]
  | case4 jump rest f outer scopes hscopes ih => exact ih fun hmem => h (List.mem_cons_of_mem _ hmem)
  | case5 jump rest f hscopes => rfl

/-- A jump that is settled lands where its kind says, or has still no target if it is handed on. -/
theorem get?_settle_of_mem (pending : List PendingJump) (f : ScriptFunction) {p : PendingJump}
    {code : Opcode} (hnodup : (pending.map (·.jump)).Nodup) (hp : p ∈ pending)
    (hget : f.get? p.jump = some (.jump code none))
    (hok : (settle header footer pending f).1 = none) :
    (settle header footer pending f).2.get? p.jump =
      some (.jump code (p.kind.landing header footer)) := by
  fun_induction ScriptFunction.settle header footer pending f with
  | case1 header f => cases hp
  | case2 header jump rest f ih =>
      obtain ⟨hnew, hrest⟩ := List.nodup_cons.mp hnodup
      rcases List.mem_cons.mp hp with rfl | hp
      · rw [get?_settle_of_notMem header footer rest _ hnew, get?_setTarget, if_pos rfl, hget]
        rfl
      · have hne : p.jump ≠ jump := fun heq => hnew (List.mem_map.mpr ⟨p, hp, heq⟩)
        exact ih hrest hp (by rw [get?_setTarget, if_neg hne, hget]) hok
  | case3 jump rest f header ih =>
      obtain ⟨hnew, hrest⟩ := List.nodup_cons.mp hnodup
      rcases List.mem_cons.mp hp with rfl | hp
      · rw [get?_settle_of_notMem (some header) footer rest _ hnew, get?_setTarget, if_pos rfl, hget]
        rfl
      · have hne : p.jump ≠ jump := fun heq => hnew (List.mem_map.mpr ⟨p, hp, heq⟩)
        exact ih hrest hp (by rw [get?_setTarget, if_neg hne, hget]) hok
  | case4 jump rest f outer scopes hscopes ih =>
      obtain ⟨hnew, hrest⟩ := List.nodup_cons.mp hnodup
      rcases List.mem_cons.mp hp with rfl | hp
      · rw [get?_settle_of_notMem none footer rest _ hnew]
        exact hget
      · exact ih hrest hp hget hok
  | case5 jump rest f hscopes => cases hok

/-- Settling jumps fails exactly if a continue finds neither a header nor a scope around it. -/
theorem settle_fst_eq_none_iff (pending : List PendingJump) (f : ScriptFunction) :
    (settle header footer pending f).1 = none ↔
      ¬ (header = none ∧ f.scopes = [] ∧ ∃ p ∈ pending, p.kind = .next) := by
  fun_induction ScriptFunction.settle header footer pending f with
  | case1 header f => simp
  | case2 header jump rest f ih =>
      rw [ih]
      simp [setTarget]
  | case3 jump rest f header ih =>
      rw [ih]
      simp
  | case4 jump rest f outer scopes hscopes ih =>
      rw [ih]
      simp [hscopes]
  | case5 jump rest f hscopes => simp [hscopes]

/-- Settling jumps hands continues on to the scope around, if there is no header. -/
theorem scopes_settle (pending : List PendingJump) (f : ScriptFunction)
    (hok : (settle header footer pending f).1 = none) :
    (settle header footer pending f).2.scopes =
      f.scopes.modify 0 (· ++ pending.filter fun p => p.kind.landing header footer = none) := by
  fun_induction ScriptFunction.settle header footer pending f with
  | case1 header f => cases hscopes : f.scopes <;> simp
  | case2 header jump rest f ih =>
      rw [ih hok]
      simp [LoopJump.landing, setTarget]
  | case3 jump rest f header ih =>
      rw [ih hok]
      simp [LoopJump.landing, setTarget]
  | case4 jump rest f outer scopes hscopes ih =>
      rw [ih hok]
      simp [LoopJump.landing, hscopes]
  | case5 jump rest f hscopes => cases hok

end Settle

end ScriptFunction

/-! ## The fate of a jump when a scope is closed -/

section Suffix

variable {α : Type}

/-- What follows an element in a list without repetitions is determined by the element. -/
theorem suffix_cons_unique {l xs ys : List α} {a : α} (hnodup : l.Nodup) (hxs : a :: xs <:+ l)
    (hys : a :: ys <:+ l) : xs = ys := by
  rcases List.suffix_or_suffix_of_suffix hxs hys with h | h
  · rcases List.suffix_cons_iff.mp h with heq | hlater
    · exact (List.cons.inj heq).2
    · have := hnodup.sublist hys.sublist
      exact absurd (hlater.subset (List.mem_cons_self ..)) (List.nodup_cons.mp this).1
  · rcases List.suffix_cons_iff.mp h with heq | hlater
    · exact (List.cons.inj heq).2.symm
    · have := hnodup.sublist hxs.sublist
      exact absurd (hlater.subset (List.mem_cons_self ..)) (List.nodup_cons.mp this).1

end Suffix

namespace Fate

variable {closing : Nat → Option (Option Key × Key)} {kind : LoopJump} {scopes outer : List Nat}
  {scope : Nat} {header : Option Key} {footer : Key}

theorem closing_of_waits (h : of closing kind scopes = waits scope) :
    closing scope = none ∧ scope ∈ scopes := by
  fun_induction of closing kind scopes with
  | case1 => cases h
  | case2 first outer hopen => cases h; exact ⟨hopen, List.mem_cons_self ..⟩
  | case3 => cases h
  | case4 => cases h
  | case5 first outer footer hkind hclosing ih =>
      exact (ih (hkind ▸ h)).imp_right (List.mem_cons_of_mem _)

theorem of_cons_of_open (h : closing scope = none) : of closing kind (scope :: outer) = waits scope := by
  simp [of, h]

/-- What becomes of a jump whose scope is closed: it lands, or it waits for the scope around it. -/
def afterClosing (header : Option Key) (footer : Key) (outer : List Nat) (kind : LoopJump) : Fate :=
  match kind.landing header footer, outer with
  | some after, _ => lands after
  | none, scope :: _ => waits scope
  | none, [] => lost

theorem target?_afterClosing (header : Option Key) (footer : Key) (outer : List Nat) (kind : LoopJump) :
    (afterClosing header footer outer kind).target? = kind.landing header footer := by
  unfold afterClosing
  split <;> simp_all [target?]

theorem afterClosing_eq_lost_iff :
    afterClosing header footer outer kind = lost ↔ kind.landing header footer = none ∧ outer = [] := by
  unfold afterClosing
  split <;> simp_all

theorem afterClosing_eq_waits_iff {other : Nat} :
    afterClosing header footer outer kind = waits other ↔
      kind.landing header footer = none ∧ outer.head? = some other := by
  unfold afterClosing
  split <;> simp_all

/-- Closing a scope decides the fate of the jumps that wait for it, and of no others.  All scopes around
it are open. -/
theorem of_update (hopen : closing scope = none)
    (houter : ∀ rest, scope :: rest <:+ scopes → rest = outer)
    (hopened : ∀ other ∈ outer, closing other = none ∧ other ≠ scope) :
    of (Function.update closing scope (some (header, footer))) kind scopes =
      if of closing kind scopes = waits scope then afterClosing header footer outer kind
      else of closing kind scopes := by
  induction scopes with
  | nil => rfl
  | cons first rest ih =>
      by_cases hfirst : first = scope
      · subst hfirst
        rw [of_cons_of_open hopen, if_pos rfl]
        have hrest : rest = outer := houter rest List.suffix_rfl
        subst hrest
        cases kind with
        | leave => simp [of, afterClosing, LoopJump.landing]
        | next =>
            cases header with
            | some header => simp [of, afterClosing, LoopJump.landing]
            | none =>
                simp only [of, Function.update_self, afterClosing, LoopJump.landing]
                cases rest with
                | nil => rfl
                | cons other rest =>
                    obtain ⟨hother, hne⟩ := hopened other (List.mem_cons_self ..)
                    exact of_cons_of_open (by rw [Function.update_of_ne hne, hother])
      · have ih := ih fun tail htail => houter tail (htail.trans (List.suffix_cons first rest))
        cases hclosing : closing first with
        | none =>
            rw [of_cons_of_open hclosing, if_neg (by simpa using hfirst)]
            exact of_cons_of_open (by rw [Function.update_of_ne hfirst, hclosing])
        | some closed =>
            obtain ⟨header', footer'⟩ := closed
            cases kind with
            | leave => simp [of, Function.update_of_ne hfirst, hclosing]
            | next =>
                cases header' with
                | some header' => simp [of, Function.update_of_ne hfirst, hclosing]
                | none =>
                    simp only [of, Function.update_of_ne hfirst, hclosing]
                    exact ih

end Fate

/-! ## The invariant -/

namespace LoopLog

/-- Whether a log tracks a function: what waits in an open scope is what the log says waits for it, and
every other jump that was emitted has the target that the log gives it. -/
structure Tracks (log : LoopLog) (f : ScriptFunction) : Prop where
  nodup : log.opened.Nodup
  closing : ∀ scope, log.closing scope = none ↔ scope ∈ log.opened ∨ log.count ≤ scope
  opened_lt : ∀ scope ∈ log.opened, scope < log.count
  scopes_lt : ∀ j ∈ log.jumps, ∀ scope ∈ j.scopes, scope < log.count
  around : ∀ j ∈ log.jumps, ∀ scope outer rest, scope :: outer <:+ j.scopes →
    scope :: rest <:+ log.opened → outer = rest
  found : ∀ j ∈ log.jumps, log.fate j ≠ .lost
  target : ∀ j ∈ log.jumps, f.get? j.key = some (.jump .jump (log.fate j).target?)
  keys : (log.jumps.map (·.key)).Nodup
  pending : List.Forall₂ (fun pending scope => pending.Perm ((log.waiting scope).map (·.pending)))
    f.scopes log.opened

theorem tracks_create (target : Target) (name : String) (hash namespaceHash : UInt32)
    (params flags : UInt8) :
    Tracks {} (ScriptFunction.create target name hash namespaceHash params flags) where
  nodup := List.nodup_nil
  closing := by simp
  opened_lt := by simp
  scopes_lt := by simp
  around := by simp
  found := by simp
  target := by simp
  keys := List.nodup_nil
  pending := .nil

namespace Tracks

variable {log : LoopLog} {f g : ScriptFunction} {l : Ledger Instruction}

/-- What lets the open scopes and all jumps be as they are. -/
theorem of_get? (h : log.Tracks f) (hscopes : g.scopes = f.scopes)
    (hget : ∀ key i, f.get? key = some i → g.get? key = some i) : log.Tracks g :=
  { h with
    target := fun j hj => hget _ _ (h.target j hj)
    pending := hscopes ▸ h.pending }

theorem lt_of_waits (h : log.Tracks f) {j : EmittedJump} (hj : j ∈ log.jumps) {scope : Nat}
    (hwaits : log.fate j = .waits scope) : scope < log.count :=
  h.scopes_lt j hj scope (Fate.closing_of_waits hwaits).2

theorem mem_opened_of_waits (h : log.Tracks f) {j : EmittedJump} (hj : j ∈ log.jumps) {scope : Nat}
    (hwaits : log.fate j = .waits scope) : scope ∈ log.opened := by
  rcases (h.closing scope).mp (Fate.closing_of_waits hwaits).1 with hmem | hle
  · exact hmem
  · exact absurd (h.lt_of_waits hj hwaits) (Nat.not_lt.mpr hle)

/-- Opening a scope. -/
theorem enterLoop (h : log.Tracks f) : (log.note f .enterLoop).Tracks f.enterLoop where
  nodup := List.nodup_cons.mpr ⟨fun hmem => Nat.lt_irrefl _ (h.opened_lt _ hmem), h.nodup⟩
  closing := by
    intro scope
    simp only [note, h.closing, List.mem_cons, or_assoc, Nat.succ_le_iff, Nat.le_iff_lt_or_eq]
    grind
  opened_lt := by
    intro scope hscope
    rcases List.mem_cons.mp hscope with rfl | hscope
    · exact Nat.lt_succ_self _
    · exact Nat.lt_succ_of_lt (h.opened_lt scope hscope)
  scopes_lt := fun j hj scope hscope => Nat.lt_succ_of_lt (h.scopes_lt j hj scope hscope)
  around := by
    intro j hj scope outer rest houter hrest
    rcases List.suffix_cons_iff.mp hrest with heq | hrest
    · -- the new scope is around no jump
      obtain ⟨rfl, -⟩ := List.cons.inj heq
      exact absurd (h.scopes_lt j hj _ (houter.subset (List.mem_cons_self ..))) (Nat.lt_irrefl _)
    · exact h.around j hj scope outer rest houter hrest
  found := h.found
  target := h.target
  keys := h.keys
  pending := by
    refine .cons ?_ h.pending
    have hnone : log.waiting log.count = [] := by
      refine List.filter_eq_nil_iff.mpr fun j hj hwaits => ?_
      exact Nat.lt_irrefl _ (h.lt_of_waits hj (of_decide_eq_true hwaits))
    change [].Perm ((log.waiting log.count).map _)
    rw [hnone]
    exact .nil

/-- Emitting a jump about an open scope. -/
theorem emit (h : log.Tracks f) (hf : f.Stands l) (kind : LoopJump) {outward : Nat}
    (houtward : outward < log.opened.length)
    (hchain : g.chain = (f.add (.jump .jump none)).2.chain)
    (hscopes : g.scopes = f.scopes.modify outward (· ++ [⟨kind, (f.add (.jump .jump none)).1⟩])) :
    Tracks { log with
      jumps := ⟨(f.add (.jump .jump none)).1, kind, log.opened.drop outward⟩ :: log.jumps } g := by
  obtain ⟨hnone, hsome⟩ := hf.get?_add (.jump .jump none)
  have hgrow : ∀ key i, f.get? key = some i → g.get? key = some i :=
    fun key i => hf.get?_of_grows (.push _) trivial hchain
  generalize hkey : (f.add (.jump .jump none)).1 = key at hnone hsome hscopes ⊢
  have hfate : Fate.of log.closing kind (log.opened.drop outward) =
      .waits log.opened[outward] := by
    rw [List.drop_eq_getElem_cons houtward]
    exact Fate.of_cons_of_open ((h.closing _).mpr (.inl (List.getElem_mem ..)))
  constructor
  case nodup => exact h.nodup
  case closing => exact h.closing
  case opened_lt => exact h.opened_lt
  case scopes_lt =>
    refine List.forall_mem_cons.mpr ⟨fun scope hscope => ?_, h.scopes_lt⟩
    exact h.opened_lt scope (List.mem_of_mem_drop hscope)
  case around =>
    refine List.forall_mem_cons.mpr ⟨fun scope outer rest houter hrest => ?_, h.around⟩
    exact suffix_cons_unique h.nodup (houter.trans (List.drop_suffix outward _)) hrest
  case found =>
    refine List.forall_mem_cons.mpr ⟨fun hlost => ?_, h.found⟩
    rw [fate, hfate] at hlost
    cases hlost
  case target =>
    refine List.forall_mem_cons.mpr ⟨?_, fun j hj => hgrow _ _ (h.target j hj)⟩
    have hget : g.get? key = some (.jump .jump none) := by
      rw [ScriptFunction.get?, hchain]
      exact hsome
    rw [fate, hfate]
    exact hget
  case keys =>
    refine List.nodup_cons.mpr ⟨fun hmem => ?_, h.keys⟩
    obtain ⟨j, hj, heq⟩ := List.mem_map.mp hmem
    have hget := h.target j hj
    rw [heq, hnone] at hget
    cases hget
  case pending =>
    obtain ⟨hlength, hperm⟩ := List.forall₂_iff_get.mp h.pending
    refine List.forall₂_iff_get.mpr ⟨by rw [hscopes, List.length_modify, hlength], fun i hi hi' => ?_⟩
    have hold := hperm i (by rw [hlength]; exact hi') hi'
    simp only [List.get_eq_getElem] at hold ⊢
    simp only [hscopes, List.getElem_modify, waiting, List.filter_cons, fate, hfate]
    by_cases heq : outward = i
    · subst heq
      simp only [if_true, decide_true, List.map_cons]
      exact (List.perm_append_singleton _ _).trans (hold.cons _)
    · have hne : log.opened[outward] ≠ log.opened[i] := fun hsame =>
        heq ((h.nodup.getElem_inj_iff).mp hsame)
      simp only [heq, if_false, Fate.waits.injEq, hne, decide_false, Bool.false_eq_true]
      exact hold

/-- Emitting a jump. -/
theorem loopJump (h : log.Tracks f) (hf : f.Stands l) (kind : LoopJump) (levels : Nat) :
    (log.note f (.loopJump kind levels)).Tracks (f.edit (.loopJump kind levels)) := by
  have hlength : f.scopes.length = log.opened.length := h.pending.length_eq
  simp only [note, ScriptFunction.edit, ScriptFunction.addLoopJump]
  by_cases hfew : f.scopes.length ≤ max levels 1 - 1
  · simp only [if_pos hfew]
    exact h
  · simp only [if_neg hfew]
    exact h.emit hf kind (by omega) rfl rfl

section Exit

variable {header : Option Key} {footer : Key} {pending : List PendingJump}
  {scopes : List (List PendingJump)} {scope other : Nat} {outer : List Nat}

/-- What waits in the innermost scope is what waits for it, each jump once. -/
theorem mem_pending_iff (h : log.Tracks f) (hperm : pending.Perm ((log.waiting scope).map (·.pending)))
    {j : EmittedJump} (hj : j ∈ log.jumps) :
    (j.key ∈ pending.map (·.jump) ↔ log.fate j = .waits scope) ∧
      (log.fate j = .waits scope → j.pending ∈ pending) ∧ (pending.map (·.jump)).Nodup := by
  have hkeys : (pending.map (·.jump)).Perm ((log.waiting scope).map (·.key)) := by
    have := hperm.map (·.jump)
    rwa [List.map_map] at this
  have hwaiting : ∀ {j}, j ∈ log.waiting scope ↔ j ∈ log.jumps ∧ log.fate j = .waits scope := by
    simp [waiting]
  refine ⟨⟨fun hmem => ?_, fun hwaits => ?_⟩, fun hwaits => ?_, ?_⟩
  · obtain ⟨other, hother, heq⟩ := List.mem_map.mp (hkeys.mem_iff.mp hmem)
    obtain ⟨hother, hwaits⟩ := hwaiting.mp hother
    rwa [← List.inj_on_of_nodup_map h.keys hother hj heq]
  · exact hkeys.mem_iff.mpr (List.mem_map_of_mem (hwaiting.mpr ⟨hj, hwaits⟩))
  · exact hperm.mem_iff.mpr (List.mem_map_of_mem (hwaiting.mpr ⟨hj, hwaits⟩))
  · exact hkeys.nodup_iff.mpr (h.keys.sublist (List.filter_sublist.map _))

theorem open_of_mem (h : log.Tracks f) (hopened : log.opened = scope :: outer) :
    log.closing scope = none ∧ ∀ other ∈ outer, log.closing other = none ∧ other ≠ scope := by
  have hnodup := h.nodup
  rw [hopened] at hnodup
  refine ⟨(h.closing scope).mpr (.inl (by simp [hopened])), fun other hother => ⟨?_, ?_⟩⟩
  · exact (h.closing other).mpr (.inl (by simp [hopened, hother]))
  · rintro rfl
    exact (List.nodup_cons.mp hnodup).1 hother

theorem fate_closed (h : log.Tracks f) (hopened : log.opened = scope :: outer) {j : EmittedJump}
    (hj : j ∈ log.jumps) : (closed log scope outer header footer).fate j =
      if log.fate j = .waits scope then .afterClosing header footer outer j.kind else log.fate j := by
  obtain ⟨hopen, houter⟩ := h.open_of_mem hopened
  refine Fate.of_update hopen (fun rest hrest => ?_) houter
  exact h.around j hj scope rest outer hrest (hopened ▸ List.suffix_rfl)

/-- What waits for the next scope when one is closed: what waited for it, and what is handed on. -/
theorem waiting_closed (h : log.Tracks f) {rest : List Nat}
    (hopened : log.opened = scope :: other :: rest) :
    ((closed log scope (other :: rest) header footer).waiting other).Perm
      (log.waiting other ++
        (log.waiting scope).filter fun j => j.kind.landing header footer = none) := by
  have hne : other ≠ scope := ((h.open_of_mem hopened).2 other (List.mem_cons_self ..)).2
  refine (List.filter_append_perm (fun j => log.fate j = .waits other) _).symm.trans
    (.append (.of_eq ?_) (.of_eq ?_))
  · rw [waiting, waiting, List.filter_filter]
    refine List.filter_congr fun j hj => ?_
    rw [h.fate_closed hopened hj]
    by_cases hwaits : log.fate j = .waits other <;> simp [hwaits, hne]
  · rw [waiting, waiting, List.filter_filter, List.filter_filter]
    refine List.filter_congr fun j hj => ?_
    rw [h.fate_closed hopened hj]
    by_cases hwaits : log.fate j = .waits scope
    · simp [hwaits, hne.symm, Fate.afterClosing_eq_waits_iff]
    · simp [hwaits]

theorem waiting_closed_of_mem (h : log.Tracks f) {rest : List Nat}
    (hopened : log.opened = scope :: other :: rest) {later : Nat} (hlater : later ∈ rest) :
    (closed log scope (other :: rest) header footer).waiting later = log.waiting later := by
  have hnodup := h.nodup
  rw [hopened] at hnodup
  refine List.filter_congr fun j hj => ?_
  rw [h.fate_closed hopened hj]
  by_cases hwaits : log.fate j = .waits scope
  · have hne : scope ≠ later := by
      rintro rfl
      simp [hlater] at hnodup
    have hne' : other ≠ later := by
      rintro rfl
      simp [hlater] at hnodup
    simp [hwaits, hne, hne', Fate.afterClosing_eq_waits_iff]
  · simp [hwaits]

/-- Closing the innermost scope. -/
theorem settle (h : log.Tracks f) (hopened : log.opened = scope :: outer)
    (hscopes : f.scopes = pending :: scopes)
    (hok : (ScriptFunction.settle header footer pending { f with scopes }).1 = none) :
    (closed log scope outer header footer).Tracks
      (ScriptFunction.settle header footer pending { f with scopes }).2 := by
  have hpending := h.pending
  rw [hscopes, hopened] at hpending
  obtain ⟨hperm, hrest⟩ := List.forall₂_cons.mp hpending
  have hnodup := h.nodup
  rw [hopened] at hnodup
  have hfate : ∀ j ∈ log.jumps, (closed log scope outer header footer).fate j =
      if log.fate j = .waits scope then .afterClosing header footer outer j.kind else log.fate j :=
    fun j hj => h.fate_closed hopened hj
  constructor
  case nodup => exact (List.nodup_cons.mp hnodup).2
  case closing =>
    intro other
    by_cases hother : other = scope
    · have hlt : scope < log.count := h.opened_lt scope (by simp [hopened])
      simp only [closed, hother, Function.update_self]
      simp [(List.nodup_cons.mp hnodup).1, hlt]
    · simp only [closed, Function.update_of_ne hother, h.closing other, hopened, List.mem_cons, hother,
        false_or]
  case opened_lt =>
    intro other hother
    exact h.opened_lt other (hopened ▸ List.mem_cons_of_mem scope hother)
  case scopes_lt => exact h.scopes_lt
  case around =>
    intro j hj other inner rest hinner hrest
    exact h.around j hj other inner rest hinner
      (hopened ▸ hrest.trans (List.suffix_cons scope outer))
  case found =>
    intro j hj hlost
    rw [hfate j hj] at hlost
    split at hlost
    · -- a continue that finds no header is refused in the outermost scope
      rename_i hwaits
      obtain ⟨hlanding, rfl⟩ := Fate.afterClosing_eq_lost_iff.mp hlost
      obtain ⟨-, hmem, -⟩ := h.mem_pending_iff hperm hj
      cases hrest
      refine (ScriptFunction.settle_fst_eq_none_iff header footer pending _).mp hok
        ⟨?_, rfl, j.pending, hmem hwaits, ?_⟩
      · cases hkind : j.kind <;> simp_all [LoopJump.landing]
      · cases hkind : j.kind <;> simp_all [LoopJump.landing, EmittedJump.pending]
    · exact h.found j hj hlost
  case target =>
    intro j hj
    obtain ⟨hkey, hmem, hkeys⟩ := h.mem_pending_iff hperm hj
    have hget := h.target j hj
    rw [hfate j hj]
    split
    · rename_i hwaits
      rw [hwaits] at hget
      rw [Fate.target?_afterClosing]
      exact ScriptFunction.get?_settle_of_mem header footer pending { f with scopes } hkeys
        (hmem hwaits) hget hok
    · rename_i hwaits
      rw [ScriptFunction.get?_settle_of_notMem header footer pending _ (hkey.not.mpr hwaits)]
      exact hget
  case keys => exact h.keys
  case pending =>
    rw [ScriptFunction.scopes_settle header footer pending _ hok]
    cases hrest with
    | nil => exact .nil
    | @cons first other scopes rest hfirst hrest =>
        refine .cons ?_ ?_
        · have hhanded : (pending.filter fun p => p.kind.landing header footer = none).Perm
              (((log.waiting scope).filter fun j => j.kind.landing header footer = none).map
                (·.pending)) := by
            refine (hperm.filter _).trans (.of_eq ?_)
            rw [List.filter_map]
            rfl
          refine .trans ?_ ((h.waiting_closed hopened).symm.map _)
          rw [List.map_append]
          exact hfirst.append hhanded
        · obtain ⟨hlength, hrest⟩ := List.forall₂_iff_get.mp hrest
          refine List.forall₂_iff_get.mpr ⟨hlength, fun i hi hi' => ?_⟩
          have hmem : rest.get ⟨i, hi'⟩ ∈ rest := List.get_mem ..
          rw [h.waiting_closed_of_mem hopened hmem]
          exact hrest i hi hi'

/-- Closing the innermost scope, if there is one. -/
theorem exitLoop (h : log.Tracks f) (hok : (f.exitLoop header footer).1 = none) :
    (log.close header footer).Tracks (f.exitLoop header footer).2 := by
  unfold ScriptFunction.exitLoop at hok ⊢
  unfold close
  have hpending := h.pending
  cases hscopes : f.scopes with
  | nil =>
      rw [hscopes] at hpending
      cases hopened : log.opened with
      | nil => exact h
      | cons scope outer => rw [hopened] at hpending; cases hpending
  | cons pending scopes =>
      cases hopened : log.opened with
      | nil => rw [hscopes, hopened] at hpending; cases hpending
      | cons scope outer =>
          simp only [hscopes] at hok
          exact h.settle hopened hscopes hok

end Exit

end Tracks

end LoopLog

/-! ## Steps and runs -/

namespace Edit

/-- Whether an edit of a function lets its jumps be: it neither removes an instruction nor sets the target
of a jump by hand, and if it closes a scope, that succeeds. -/
def Undisturbing (f : ScriptFunction) : Edit → Prop
  | .remove _ | .setTarget _ _ => False
  | .exitLoop header footer => (f.exitLoop header footer).1 = none
  | _ => True

/-- Whether all of some edits of a function let its jumps be. -/
def AllUndisturbing : ScriptFunction → List Edit → Prop
  | _, [] => True
  | f, e :: changes => e.Undisturbing f ∧ AllUndisturbing (f.edit e) changes

end Edit

namespace LoopLog.Tracks

variable {log : LoopLog} {f : ScriptFunction} {l : Ledger Instruction}

/-- One edit. -/
theorem edit (h : log.Tracks f) (hf : f.Stands l) {e : Edit} (he : e.Undisturbing f) :
    (log.note f e).Tracks (f.edit e) := by
  have hsame : ∀ {g : ScriptFunction}, g.chain = f.chain → ∀ key i, f.get? key = some i →
      g.get? key = some i := by
    intro g hg key i hget
    rwa [ScriptFunction.get?, hg]
  cases e with
  | declare hash =>
      refine h.of_get? ?_ (hsame ?_) <;>
        simp only [ScriptFunction.edit, ScriptFunction.addLocal] <;> split <;> rfl
  | add i => exact h.of_get? rfl fun key i => hf.get?_of_grows (.push _) trivial rfl
  | insert after i =>
      exact h.of_get? rfl fun key i => hf.get?_of_grows (.insertAfter _ _) trivial rfl
  | remove key => exact he.elim
  | setTarget jump after => exact he.elim
  | enterLoop => exact h.enterLoop
  | loopJump kind levels => exact h.loopJump hf kind levels
  | exitLoop header footer => exact h.exitLoop he
  | reserveSwitch hash => exact h.of_get? rfl (hsame rfl)
  | takeSwitch =>
      refine h.of_get? ?_ (hsame ?_) <;>
        simp only [ScriptFunction.edit, ScriptFunction.popSwitchKey] <;> split <;> rfl
  | reserveForeach locals => exact h.of_get? rfl (hsame rfl)
  | takeForeach =>
      refine h.of_get? ?_ (hsame ?_) <;>
        simp only [ScriptFunction.edit, ScriptFunction.popForeachLocals] <;> split <;> rfl

/-- Several edits. -/
theorem edits (changes : List Edit) : ∀ {log : LoopLog} {f : ScriptFunction} {l : Ledger Instruction},
    log.Tracks f → f.Stands l → Edit.AllUndisturbing f changes →
      (notes f log changes).Tracks (f.edits changes) := by
  induction changes with
  | nil => exact fun h _ _ => h
  | cons e changes ih =>
      intro log f l h hf hchanges
      obtain ⟨l', -, hf'⟩ := hf.edit e
      exact ih (h.edit hf hchanges.1) hf' hchanges.2

end LoopLog.Tracks

/-! ## Every jump is accounted for -/

namespace LoopLog

/-- Whether a jump that was emitted is where the log says: it waits in that one open scope and has no
target, or it has its target and waits in none. -/
def Accounts (log : LoopLog) (f : ScriptFunction) (j : EmittedJump) : Prop :=
  match log.fate j with
  | .waits scope => f.get? j.key = some (.jump .jump none) ∧
      (f.scopes.flatten.map (·.jump)).count j.key = 1 ∧
      ∃ (position : Nat) (pending : List PendingJump), log.opened[position]? = some scope ∧
        f.scopes[position]? = some pending ∧ j.pending ∈ pending
  | .lands after => f.get? j.key = some (.jump .jump (some after)) ∧
      j.key ∉ f.scopes.flatten.map (·.jump)
  | .lost => False

namespace Tracks

variable {log : LoopLog} {f : ScriptFunction}

/-- What waits in all scopes together is what waits for one of them. -/
theorem flatten_perm (h : log.Tracks f) :
    (f.scopes.flatten.map (·.jump)).Perm
      (log.opened.flatMap fun scope => (log.waiting scope).map (·.key)) := by
  have hperm : f.scopes.flatten.Perm
      (log.opened.map fun scope => (log.waiting scope).map (·.pending)).flatten :=
    List.Perm.flatten_congr (List.forall₂_map_right_iff.mpr h.pending)
  refine (hperm.map _).trans (.of_eq ?_)
  rw [List.map_flatten, List.map_map, List.flatMap_def]
  simp only [Function.comp_def, List.map_map]
  rfl

theorem mem_flatten_iff (h : log.Tracks f) {j : EmittedJump} (hj : j ∈ log.jumps) :
    j.key ∈ f.scopes.flatten.map (·.jump) ↔ ∃ scope, log.fate j = .waits scope := by
  rw [h.flatten_perm.mem_iff]
  simp only [List.mem_flatMap, List.mem_map, waiting, List.mem_filter, decide_eq_true_eq]
  constructor
  · rintro ⟨scope, -, other, ⟨hother, hwaits⟩, heq⟩
    exact ⟨scope, List.inj_on_of_nodup_map h.keys hother hj heq ▸ hwaits⟩
  · rintro ⟨scope, hwaits⟩
    exact ⟨scope, h.mem_opened_of_waits hj hwaits, j, ⟨hj, hwaits⟩, rfl⟩

theorem nodup_flatten (h : log.Tracks f) : (f.scopes.flatten.map (·.jump)).Nodup := by
  rw [h.flatten_perm.nodup_iff, List.nodup_flatMap]
  refine ⟨fun scope _ => h.keys.sublist (List.filter_sublist.map _), ?_⟩
  refine h.nodup.imp fun hne key hfirst hsecond => hne ?_
  simp only [List.mem_map, waiting, List.mem_filter, decide_eq_true_eq] at hfirst hsecond
  obtain ⟨j, ⟨hj, hwaits⟩, rfl⟩ := hfirst
  obtain ⟨other, ⟨hother, hwaits'⟩, heq⟩ := hsecond
  rw [List.inj_on_of_nodup_map h.keys hother hj heq, hwaits] at hwaits'
  exact Fate.waits.inj hwaits'

theorem accounts (h : log.Tracks f) {j : EmittedJump} (hj : j ∈ log.jumps) : log.Accounts f j := by
  have htarget := h.target j hj
  have hmem := h.mem_flatten_iff hj
  unfold Accounts
  cases hfate : log.fate j with
  | waits scope =>
      rw [hfate] at htarget
      refine ⟨htarget, List.count_eq_one_of_mem h.nodup_flatten (hmem.mpr ⟨scope, hfate⟩), ?_⟩
      obtain ⟨position, hposition, heq⟩ :=
        List.getElem_of_mem (h.mem_opened_of_waits hj hfate)
      obtain ⟨hlength, hperm⟩ := List.forall₂_iff_get.mp h.pending
      have hposition' : position < f.scopes.length := by omega
      refine ⟨position, f.scopes[position], ?_, ?_, ?_⟩
      · rw [List.getElem?_eq_getElem hposition, heq]
      · rw [List.getElem?_eq_getElem hposition']
      · have hperm := hperm position hposition' hposition
        simp only [List.get_eq_getElem, heq] at hperm
        exact (h.mem_pending_iff hperm hj).2.1 hfate
  | lands after =>
      rw [hfate] at htarget hmem
      exact ⟨htarget, hmem.not.mpr (by simp)⟩
  | lost => exact h.found j hj hfate

/-- Closing a scope fails exactly if it is the outermost, there is no header, and a continue waits. -/
theorem exitLoop_fails_iff (h : log.Tracks f) (header : Option Key) (footer : Key) :
    (f.exitLoop header footer).1 ≠ none ↔ header = none ∧ ∃ scope, log.opened = [scope] ∧
      ∃ j ∈ log.jumps, j.kind = .next ∧ log.fate j = .waits scope := by
  have hpending := h.pending
  unfold ScriptFunction.exitLoop
  cases hscopes : f.scopes with
  | nil =>
      rw [hscopes] at hpending
      cases hopened : log.opened with
      | nil => simp
      | cons scope outer => rw [hopened] at hpending; cases hpending
  | cons pending scopes =>
      cases hopened : log.opened with
      | nil => rw [hscopes, hopened] at hpending; cases hpending
      | cons scope outer =>
          rw [hscopes, hopened] at hpending
          obtain ⟨hperm, hrest⟩ := List.forall₂_cons.mp hpending
          have houter : scopes = [] ↔ outer = [] := by
            rw [← List.length_eq_zero_iff, hrest.length_eq, List.length_eq_zero_iff]
          have hnext : (∃ p ∈ pending, p.kind = .next) ↔
              ∃ j ∈ log.jumps, j.kind = .next ∧ log.fate j = .waits scope := by
            simp only [hperm.mem_iff, List.mem_map, waiting, List.mem_filter, decide_eq_true_eq]
            constructor
            · rintro ⟨p, ⟨j, ⟨hj, hwaits⟩, rfl⟩, hkind⟩
              exact ⟨j, hj, hkind, hwaits⟩
            · rintro ⟨j, hj, hkind, hwaits⟩
              exact ⟨j.pending, ⟨j, ⟨hj, hwaits⟩, rfl⟩, hkind⟩
          simp only [ne_eq, ScriptFunction.settle_fst_eq_none_iff, not_not, hnext, houter]
          simp only [List.cons.injEq]
          constructor
          · rintro ⟨hheader, rfl, hj⟩
            exact ⟨hheader, scope, ⟨rfl, rfl⟩, hj⟩
          · rintro ⟨hheader, _, ⟨rfl, rfl⟩, hj⟩
            exact ⟨hheader, rfl, hj⟩

end Tracks

end LoopLog

/-- No break or continue is lost or misdirected.  Let a function be built by any edits that neither remove
instructions nor set targets by hand, and let every scope that was closed have been closed with success.
Then every jump that was emitted waits in exactly one open scope or has the target that the log gives it:
a break the footer of its scope, a continue the header of its scope, or of the nearest one around it that
was closed with a header.  Emitting a jump fails exactly if too few scopes are open, and then changes
nothing; closing a scope fails exactly if it is the outermost, there is no header, and a continue waits. -/
theorem loop_jumps_settled (target : Target) (name : String) (hash namespaceHash : UInt32)
    (params flags : UInt8) (changes : List Edit)
    (h : Edit.AllUndisturbing (ScriptFunction.create target name hash namespaceHash params flags)
      changes) :
    let new := ScriptFunction.create target name hash namespaceHash params flags
    let f := new.edits changes
    let log := LoopLog.notes new {} changes
    (∀ j ∈ log.jumps, log.Accounts f j) ∧
    (∀ kind levels, ((∃ e, f.addLoopJump kind levels = .error e) ↔
        log.opened.length < max levels 1) ∧
      (log.opened.length < max levels 1 → f.edit (.loopJump kind levels) = f)) ∧
    ∀ header footer, (f.exitLoop header footer).1 ≠ none ↔
      header = none ∧ ∃ scope, log.opened = [scope] ∧
        ∃ j ∈ log.jumps, j.kind = .next ∧ log.fate j = .waits scope := by
  intro new f log
  obtain ⟨l, hnew⟩ :=
    ScriptFunction.exists_stands_create target name hash namespaceHash params flags
  have htracks : log.Tracks f := LoopLog.Tracks.edits changes (LoopLog.tracks_create ..) hnew h
  have hlength : f.scopes.length = log.opened.length := htracks.pending.length_eq
  refine ⟨fun j hj => htracks.accounts hj, fun kind levels => ?_, htracks.exitLoop_fails_iff⟩
  simp only [ScriptFunction.edit, ScriptFunction.addLoopJump]
  by_cases hfew : f.scopes.length ≤ max levels 1 - 1
  · simp only [if_pos hfew]
    exact ⟨iff_of_true ⟨_, rfl⟩ (by omega), fun _ => rfl⟩
  · simp only [if_neg hfew]
    exact ⟨iff_of_false (by simp) (by omega), fun hlt => absurd hlt (by omega)⟩

/-- Edits that open a loop and a switch in it, emit a continue of the innermost loop and a break of both,
and close the switch, which has no header, and then the loop. -/
def switchInLoop : List Edit :=
  [.add (.op .nop), .enterLoop, .enterLoop, .loopJump .next 0, .loopJump .leave 2,
    .exitLoop none ⟨3, 0⟩, .exitLoop (some ⟨1, 0⟩) ⟨3, 0⟩]

/-- A continue in a switch goes to the header of the loop around it, a break of both to its footer. -/
theorem loop_jumps_settled_switchInLoop :
    let new := ScriptFunction.create .legacyLittle "main" 1 2 0 0
    Edit.AllUndisturbing new switchInLoop ∧
      (new.edits switchInLoop).get? ⟨2, 0⟩ = some (.jump .jump (some ⟨1, 0⟩)) ∧
      (new.edits switchInLoop).get? ⟨3, 0⟩ = some (.jump .jump (some ⟨3, 0⟩)) := by
  intro new
  have hundisturbing : Edit.AllUndisturbing new switchInLoop :=
    ⟨trivial, trivial, trivial, trivial, trivial, rfl, rfl, trivial⟩
  obtain ⟨haccounts, -, -⟩ := loop_jumps_settled .legacyLittle "main" 1 2 0 0 switchInLoop hundisturbing
  have hjumps : (LoopLog.notes new {} switchInLoop).jumps =
      [⟨⟨3, 0⟩, .leave, [0]⟩, ⟨⟨2, 0⟩, .next, [1, 0]⟩] := rfl
  rw [hjumps] at haccounts
  exact ⟨hundisturbing, (haccounts ⟨⟨2, 0⟩, .next, [1, 0]⟩ (by simp)).1,
    (haccounts ⟨⟨3, 0⟩, .leave, [0]⟩ (by simp)).1⟩

end GscAssembler.Code
