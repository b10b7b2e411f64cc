import GscAssembler.Image.Assemble
import GscAssembler.Proofs.Code.Layout
import GscAssembler.Proofs.Reference.Rows

/-!
# Functions one behind the other

`placeFunctions` lists where functions start that are laid out from an address on, and `codeFrom` the
bytes from there to the end of the last.  The code of a function depends on the tables through the
values of the imports only, and recording references does not change these; so every function may be
described with the tables as they are before the first one is laid out.
-/

namespace GscAssembler.Code

open Bytes (Buffer ByteOrder)
open Reference (Tables TableReference)

/-! ## What code depends on -/

section Congruence

variable {f g : Frame}

theorem Frame.importAt_congr (h : f.imports.values = g.imports.values) (entry : Nat) :
    f.importAt entry = g.importAt entry := by
  rw [importAt, importAt, ← Reference.Table.getElem?_values, h, Reference.Table.getElem?_values]

theorem Frame.code_congr (htarget : f.target = g.target) (hlocals : f.locals = g.locals)
    (himports : f.imports.values = g.imports.values) (address : Nat) (i : Instruction) :
    f.code address i = g.code address i := by
  have himport := Frame.importAt_congr himports
  cases i <;>
    simp only [code, operand, constantBytes, callCounts, himport, htarget, hlocals]

theorem Frame.accepts_congr (hlocals : f.locals = g.locals)
    (himports : f.imports.values = g.imports.values) (i : Instruction) :
    f.Accepts i ↔ g.Accepts i := by
  have hsize : f.imports.size = g.imports.size := by
    rw [← Reference.Table.length_values, himports, Reference.Table.length_values]
  cases i <;> simp only [Accepts, hlocals, hsize]

end Congruence

namespace ScriptFunction

variable {t u : Tables} (h : t.imports.values = u.imports.values)
include h

theorem codeOf_congr (f : ScriptFunction) (placed : List Placed) :
    (f.frame t).codeOf placed = (f.frame u).codeOf placed := by
  unfold Frame.codeOf
  congr 1
  funext p
  exact Frame.code_congr (f := f.frame t) (g := f.frame u) rfl rfl h p.address p.instruction

theorem bodyAt_congr (f : ScriptFunction) (order : ByteOrder) (start : Nat) :
    f.bodyAt order t start = f.bodyAt order u start := by
  rw [bodyAt, bodyAt, codeOf_congr h]

theorem layoutAt_congr (f : ScriptFunction) (order : ByteOrder) (start : Nat) :
    f.layoutAt order t start = f.layoutAt order u start := by
  rw [layoutAt, layoutAt, bodyAt_congr h]

theorem sound_congr (f : ScriptFunction) (start : Nat) : f.Sound t start ↔ f.Sound u start := by
  have haccepts := Frame.accepts_congr (f := f.frame t) (g := f.frame u) rfl h
  constructor
  · rintro ⟨hall, hlands⟩
    exact ⟨fun item hitem => (haccepts item.2).mp (hall item hitem), hlands⟩
  · rintro ⟨hall, hlands⟩
    exact ⟨fun item hitem => (haccepts item.2).mpr (hall item hitem), hlands⟩

theorem refused_congr (f : ScriptFunction) (start : Nat) (e : CompileError) :
    f.Refused t start e ↔ f.Refused u start e := by
  have haccepts := Frame.accepts_congr (f := f.frame t) (g := f.frame u) rfl h
  simp only [Refused, haccepts]

end ScriptFunction

/-! ## Where functions start -/

/-- Functions with their starts, laid out one behind the other from an address on. -/
def placeFunctions : (position : Nat) → List ScriptFunction → List (ScriptFunction × Nat)
  | _, [] => []
  | position, f :: rest =>
      (f, functionStart position) :: placeFunctions (f.endAt (functionStart position)) rest

/-- The address behind functions that are laid out from an address on. -/
def functionsEnd (position : Nat) (functions : List ScriptFunction) : Nat :=
  functions.foldl (fun position f => f.endAt (functionStart position)) position

/-- The bytes from an address to the end of the functions that are laid out from there on. -/
def codeFrom (order : ByteOrder) (tables : Tables) :
    (position : Nat) → List ScriptFunction → List UInt8
  | _, [] => []
  | position, f :: rest =>
      List.replicate (functionStart position - position) 0 ++
        (f.bodyAt order tables (functionStart position)).bytes.toList ++
        codeFrom order tables (f.endAt (functionStart position)) rest

/-- The layouts of placed functions. -/
def layoutsOf (order : ByteOrder) (tables : Tables) (placed : List (ScriptFunction × Nat)) :
    List FunctionLayout :=
  placed.map fun p => p.1.layoutAt order tables p.2

theorem ScriptFunction.le_endAt (f : ScriptFunction) (start : Nat) : start ≤ f.endAt start :=
  le_codeEnd _ _

theorem map_placeFunctions (functions : List ScriptFunction) :
    ∀ position, (placeFunctions position functions).map (·.1) = functions := by
  induction functions with
  | nil => intro position; rfl
  | cons f rest ih => intro position; rw [placeFunctions, List.map_cons, ih]

theorem le_functionsEnd (functions : List ScriptFunction) :
    ∀ position, position ≤ functionsEnd position functions := by
  induction functions with
  | nil => intro position; exact Nat.le_refl _
  | cons f rest ih =>
      intro position
      exact Nat.le_trans (Nat.le_trans (le_functionStart position) (f.le_endAt _)) (ih _)

theorem length_codeFrom (order : ByteOrder) (tables : Tables) (functions : List ScriptFunction) :
    ∀ position, position + (codeFrom order tables position functions).length =
      functionsEnd position functions := by
  induction functions with
  | nil => intro position; rfl
  | cons f rest ih =>
      intro position
      have hstart := le_functionStart position
      have hbody := f.size_bodyAt order tables (functionStart position)
      rw [functionsEnd, List.foldl_cons, codeFrom, ← functionsEnd, ← ih]
      simp only [List.length_append, List.length_replicate, Array.length_toList]
      omega

/-- A placed function starts behind the address that all start from, 8 bytes behind a multiple of
16, and ends before the end of all. -/
theorem span_of_mem_placeFunctions {functions : List ScriptFunction} {p : ScriptFunction × Nat} :
    ∀ {position}, p ∈ placeFunctions position functions →
      position ≤ p.2 ∧ p.2 % 16 = 8 ∧ p.1.endAt p.2 ≤ functionsEnd position functions := by
  induction functions with
  | nil => intro position hp; simp [placeFunctions] at hp
  | cons f rest ih =>
      intro position hp
      have hstart := le_functionStart position
      rcases List.mem_cons.mp hp with rfl | hp
      · exact ⟨hstart, functionStart_mod position, le_functionsEnd rest _⟩
      · obtain ⟨hle, hmod, hend⟩ := ih hp
        have := f.le_endAt (functionStart position)
        exact ⟨by omega, hmod, hend⟩

/-- Placed functions do not overlap. -/
theorem pairwise_placeFunctions (functions : List ScriptFunction) :
    ∀ position, (placeFunctions position functions).Pairwise fun p q => p.1.endAt p.2 ≤ q.2 := by
  induction functions with
  | nil => intro position; exact List.Pairwise.nil
  | cons f rest ih =>
      intro position
      exact List.Pairwise.cons (fun q hq => (span_of_mem_placeFunctions hq).1) (ih _)

/-- The bytes of a placed function stand where it was placed. -/
theorem codeFrom_of_mem (order : ByteOrder) (tables : Tables) {functions : List ScriptFunction}
    {p : ScriptFunction × Nat} :
    ∀ {position}, p ∈ placeFunctions position functions →
      ∃ before after, codeFrom order tables position functions =
          before ++ (p.1.bodyAt order tables p.2).bytes.toList ++ after ∧
        position + before.length = p.2 := by
  induction functions with
  | nil => intro position hp; simp [placeFunctions] at hp
  | cons f rest ih =>
      intro position hp
      have hstart := le_functionStart position
      rcases List.mem_cons.mp hp with rfl | hp
      · exact ⟨_, _, rfl, by simp only [List.length_replicate]; omega⟩
      · obtain ⟨before, after, hcode, hbefore⟩ := ih hp
        have hbody := f.size_bodyAt order tables (functionStart position)
        refine ⟨List.replicate (functionStart position - position) 0 ++
          (f.bodyAt order tables (functionStart position)).bytes.toList ++ before, after, ?_, ?_⟩
        · rw [codeFrom, hcode]
          simp only [List.append_assoc]
        · simp only [List.length_append, List.length_replicate, Array.length_toList]
          omega

/-! ## Laying out all functions -/

/-- The references of placed functions, in order. -/
def referencesFrom (placed : List (ScriptFunction × Nat)) : List TableReference :=
  placed.flatMap fun p => referencesOf p.1.target (p.1.placedAt p.2)

/-- Lays out one more function. -/
def layOutNext (state : Array FunctionLayout × Buffer × Tables) (f : ScriptFunction) :
    Except CompileError (Array FunctionLayout × Buffer × Tables) := do
  let (layout, image, tables) ← f.layOut state.2.1 state.2.2
  .ok (state.1.push layout, image, tables)

theorem foldlM_layOutNext_of_sound {tables : Tables} (functions : List ScriptFunction) :
    ∀ (layouts : Array FunctionLayout) (image : Buffer) (recorded : Tables),
      recorded.SameValues tables → image.start = 0 →
      (∀ p ∈ placeFunctions image.position functions, p.1.Sound tables p.2) →
      functions.foldlM layOutNext (layouts, image, recorded) =
        .ok (layouts ++ layoutsOf image.order tables (placeFunctions image.position functions),
          image.append (codeFrom image.order tables image.position functions),
          (referencesFrom (placeFunctions image.position functions)).foldl Tables.record
            recorded) := by
  induction functions with
  | nil =>
      intro layouts image recorded _ _ _
      simp [placeFunctions, layoutsOf, codeFrom, referencesFrom, pure, Except.pure]
  | cons f rest ih =>
      intro layouts image recorded hvalues hzero hsound
      generalize hstart : functionStart image.position = start
      have hle : image.position ≤ start := hstart ▸ le_functionStart _
      have hpadded : (image.padTo start).position = start := Buffer.position_padTo hle
      simp only [placeFunctions, hstart] at hsound ⊢
      have hhere : f.Sound recorded start :=
        (f.sound_congr hvalues.imports start).mpr (hsound _ (List.mem_cons_self ..))
      have hend : ((image.padTo start).append
          (f.bodyAt image.order tables start).bytes.toList).position = f.endAt start := by
        rw [Buffer.position_append, hpadded, Array.length_toList, f.size_bodyAt]
      have hrest := ih (layouts.push (f.layoutAt image.order tables start))
        ((image.padTo start).append (f.bodyAt image.order tables start).bytes.toList)
        ((referencesOf f.target (f.placedAt start)).foldl Tables.record recorded)
        ((Tables.sameValues_foldl_record _ _).trans hvalues) (by simpa using hzero)
        (by rw [hend]; exact fun p hp => hsound p (List.mem_cons_of_mem _ hp))
      rw [List.foldlM_cons, layOutNext, ScriptFunction.layOut_of_sound hzero hstart hhere,
        f.layoutAt_congr hvalues.imports, f.bodyAt_congr hvalues.imports]
      simp only [bind, Except.bind] at hrest ⊢
      rw [hrest, hend, Buffer.padTo_eq_append hle]
      simp [layoutsOf, codeFrom, referencesFrom, hstart]

theorem foldlM_layOutNext_of_not_sound {tables : Tables} {functions : List ScriptFunction} :
    ∀ (layouts : Array FunctionLayout) (image : Buffer) (recorded : Tables),
      recorded.SameValues tables → image.start = 0 →
      (∃ p ∈ placeFunctions image.position functions, ¬ p.1.Sound tables p.2) →
      ∃ e, functions.foldlM layOutNext (layouts, image, recorded) = .error e ∧
        ∃ p ∈ placeFunctions image.position functions, p.1.Refused tables p.2 e := by
  induction functions with
  | nil =>
      rintro layouts image recorded - - ⟨p, hp, -⟩
      simp [placeFunctions] at hp
  | cons f rest ih =>
      intro layouts image recorded hvalues hzero hnot
      generalize hstart : functionStart image.position = start
      have hle : image.position ≤ start := hstart ▸ le_functionStart _
      have hpadded : (image.padTo start).position = start := Buffer.position_padTo hle
      simp only [placeFunctions, hstart] at hnot ⊢
      rw [List.foldlM_cons]
      -- recording references changes no value, so `recorded` decides as `tables` does
      by_cases hhere : f.Sound recorded start
      · have hend : ((image.padTo start).append
            (f.bodyAt image.order recorded start).bytes.toList).position = f.endAt start := by
          rw [Buffer.position_append, hpadded, Array.length_toList, f.size_bodyAt]
        have hlater : ∃ p ∈ placeFunctions (f.endAt start) rest, ¬ p.1.Sound tables p.2 := by
          obtain ⟨p, hp, hp'⟩ := hnot
          rcases List.mem_cons.mp hp with rfl | hp
          · exact absurd ((f.sound_congr hvalues.imports start).mp hhere) hp'
          · exact ⟨p, hp, hp'⟩
        obtain ⟨e, he, p, hp, hwhy⟩ :=
          ih (layouts.push (f.layoutAt image.order recorded start))
            ((image.padTo start).append (f.bodyAt image.order recorded start).bytes.toList)
            ((referencesOf f.target (f.placedAt start)).foldl Tables.record recorded)
            ((Tables.sameValues_foldl_record _ _).trans hvalues) (by simpa using hzero)
            (by rw [hend]; exact hlater)
        refine ⟨e, ?_, p, List.mem_cons_of_mem _ (by rwa [hend] at hp), hwhy⟩
        rw [layOutNext, ScriptFunction.layOut_of_sound hzero hstart hhere]
        exact he
      · obtain ⟨e, he, hwhy⟩ := ScriptFunction.layOut_of_not_sound image hstart hhere
        refine ⟨e, by rw [layOutNext, he]; rfl, _, List.mem_cons_self .., ?_⟩
        exact (f.refused_congr hvalues.imports start e).mp hwhy

end GscAssembler.Code
