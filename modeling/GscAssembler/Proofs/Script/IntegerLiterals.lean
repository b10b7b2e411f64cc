import GscAssembler.Proofs.Code.Sweep
import GscAssembler.Proofs.Lowering.Macros
import GscAssembler.Proofs.Number.Spelling
import GscAssembler.Proofs.Script.Landing

/-!
# The values of integer literals

An integer is pushed by the smallest instruction for it: by its absolute value in one or two bytes, or
by a word.  `Decoded.integer?` says what each of these denotes, and `integerAt` what an image pushes at
an address.  The newer machine has words with and without sign.  The legacy machine has words with sign
only, but is given those that need all 32 bits as well; `denoted` is what it makes of them.

A literal is an integer by its number or by its text (`IntegerLiteral`).  Text beyond 64 bits is not
read as an integer but as a number of single precision, which no check of integers sees.
-/

namespace GscAssembler.Code

open Bytes (ByteOrder)
open Number (Constant)

/-! ## What an integer instruction denotes -/

/-- The integer that an instruction pushes, if it pushes one: small ones are stored as absolute values,
and large ones as words with or without sign. -/
def Decoded.integer? (d : Decoded) : Option Int :=
  match d.opcode, d.operand with
  | .getZero, .nothing => some 0
  | .getByte, .number value => some value
  | .getNegByte, .number value => some (-value)
  | .getUnsignedShort, .number value => some value
  | .getNegUnsignedShort, .number value => some (-value)
  | .getUnsignedInteger, .number value => some value
  | .getInteger, .number value => some (BitVec.ofNat 32 value).toInt
  | _, _ => none

/-- The integer that the instruction at an address of an image pushes. -/
def integerAt (target : Target) (image : Array UInt8) (address : Nat) : Option Int :=
  (decodeAt target image [] address).bind Decoded.integer?

/-- Whether an integer has 32 bits, with or without sign. -/
def Fits32 (n : Int) : Prop :=
  -2 ^ 31 ≤ n ∧ n < 2 ^ 32

/-- What the instruction for an integer denotes: the legacy machine has none for integers that need
all 32 bits, and takes their words with sign. -/
def denoted (target : Target) (n : Int) : Int :=
  if target.isLegacy ∧ 2 ^ 31 ≤ n then n - 2 ^ 32 else n

/-- The word of an integer, taken with sign. -/
theorem toInt_word {n : Int} (h : Fits32 n) :
    (BitVec.ofNat 32 (n % 2 ^ 32).toNat).toInt = if 2 ^ 31 ≤ n then n - 2 ^ 32 else n := by
  obtain ⟨hlow, hhigh⟩ := h
  have hword : (n % 2 ^ 32).toNat % 2 ^ 32 = (n % 2 ^ 32).toNat := Nat.mod_eq_of_lt (by omega)
  rw [BitVec.toInt_eq_toNat_cond, BitVec.toNat_ofNat, hword]
  split_ifs <;> omega

/-- The instruction for an integer denotes it, or what the legacy machine takes it for. -/
theorem integer?_decoded (target : Target) {n : Int} (h : Fits32 n) (address size : Nat) :
    (Decoded.mk ((Constant.int n).opcode target) address size (constantOperand (.int n))).integer? =
      some (denoted target n) := by
  have hsmall : n.natAbs ≤ 0xFFFF → denoted target n = n := fun hn => if_neg (by omega)
  simp only [Constant.opcode, constantOperand]
  by_cases hzero : n = 0
  · subst hzero
    simp [Decoded.integer?, denoted]
  by_cases hbyte : n.natAbs ≤ 0xFF
  · have hshort : n.natAbs ≤ 0xFFFF := by omega
    simp only [if_neg hzero, if_pos hbyte, if_pos hshort, hsmall hshort]
    split_ifs <;> simp only [Decoded.integer?, Option.some.injEq] <;> omega
  by_cases hshort : n.natAbs ≤ 0xFFFF
  · simp only [if_neg hzero, if_neg hbyte, if_pos hshort, hsmall hshort]
    split_ifs <;> simp only [Decoded.integer?, Option.some.injEq] <;> omega
  · have hword := toInt_word h
    obtain ⟨hlow, hhigh⟩ := h
    simp only [if_neg hzero, if_neg hbyte, if_neg hshort, denoted]
    cases hlegacy : target.isLegacy with
    | true => simpa [Decoded.integer?] using hword
    | false =>
        by_cases hpositive : 0 < n
        · simp only [hpositive, Bool.not_false, and_self, if_true, Decoded.integer?]
          simp only [Bool.false_eq_true, false_and, if_false, Option.some.injEq]
          omega
        · simp only [hpositive, false_and, if_false, Decoded.integer?, hword]
          simp only [Bool.false_eq_true, false_and, if_false, Option.some.injEq]
          exact if_neg (by omega)

section Images

variable {f : Frame} {image : Array UInt8} {address : Nat} {n m : Int}

/-- What the code of an integer denotes where it stands in an image. -/
theorem integerAt_of_holds (hn : Fits32 n)
    (h : Holds image address (f.code address (.number (.int n)))) :
    integerAt f.target image address = some (denoted f.target n) := by
  have hvalue : ((Constant.int n).opcode f.target).value < 256 ^ f.target.opcodeWidth :=
    Nat.lt_of_lt_of_le (value_lt _) (Nat.le_self_pow (Nat.ne_of_gt f.target.opcodeWidth_pos) 256)
  rw [Frame.code] at h
  have hopcode := wordAt_of_holds hvalue h.left
  have hoperand := h.right
  rw [ByteOrder.length_bytes] at hoperand
  have hread := readOperand_number (.int n) [] hoperand
  simp only [integerAt, decodeAt, hopcode, ofValue?_value, Option.bind_eq_bind, Option.bind_some, hread]
  exact integer?_decoded f.target hn address _

/-- Integers with the same code are the same, unless one is that of the other taken with sign. -/
theorem eq_of_code_eq (hn : Fits32 n) (hm : Fits32 m)
    (h : f.code address (.number (.int n)) = f.code address (.number (.int m))) :
    n = m ∨ f.target.isLegacy ∧ (n = m + 2 ^ 32 ∨ m = n + 2 ^ 32) := by
  -- an image in which the code stands at its address
  let before : List UInt8 := List.replicate address 0
  let code := f.code address (.number (.int n))
  have hlength : before.length = address := List.length_replicate
  have hholds : Holds (before ++ code).toArray address code := by
    have hbytes : (before ++ code).toArray.toList = before ++ code ++ [] := by simp
    have hslice := Bytes.slice_between hbytes
    rwa [hlength] at hslice
  have hsame : denoted f.target n = denoted f.target m := by
    have hdenotes := integerAt_of_holds hn hholds
    rw [integerAt_of_holds hm (h ▸ hholds)] at hdenotes
    exact (Option.some.inj hdenotes).symm
  unfold denoted at hsame
  split_ifs at hsame with hfirst hsecond hsecond
  · omega
  · exact .inr ⟨hfirst.1, by omega⟩
  · exact .inr ⟨hsecond.1, by omega⟩
  · exact .inl hsame

end Images

end GscAssembler.Code

namespace GscAssembler

open Code (Context Fits32 Frame denoted integerAt)
open Lowering
open Number (Constant Spells fitsInt64)
open SyntaxTree (Node)

/-! ## Lowering an integer literal -/

/-- Whether a node gives an integer: as its number, or else as its text. -/
inductive IntegerLiteral (node : Node) (n : Int) : Prop where
  /-- The node has the number. -/
  | value (hvalue : node.value? = some (.int n))
  /-- The text of the node spells it. -/
  | text {token : String} (hvalue : node.value? = none) (htext : node.text? = some token)
      (hspells : Spells token.toList n)

/-- A state with a constant pushed. -/
def withConstant (s : State) (value : Constant) : State :=
  { s with function := (s.function.add (.number value)).2 }

theorem lowerNode_of_numberLiteral {node : Node} (h : node.is "numberLiteral") (macros : Macros)
    (context : Context) : lowerNode macros node context = lowerNumber node := by
  have hkind : node.kind = "numberLiteral" := eq_of_beq h
  rw [lowerNode_eq, Construct.lower, hkind]
  rfl

section Literals

variable {node : Node} {n : Int} {s : State}

theorem lowerNumber_of_ok {value : Constant} (h : numberConstant node = .ok value) :
    lowerNumber node s = value.checked.map fun value => ((), withConstant s value) := by
  change (numberConstant node >>= fun value => .ok (value, s)).bind _ = _
  rw [h]
  change (emitNumber value s) = _
  change ((value.checked >>= fun value => Except.ok (s.function.add (.number value))).bind _).bind _ = _
  cases value.checked <;> rfl

theorem lowerNumber_of_error {e : CompileError} (h : numberConstant node = .error e) :
    lowerNumber node s = .error e := by
  change (numberConstant node >>= fun value => .ok (value, s)).bind _ = _
  rw [h]
  rfl

theorem checked_of_fits (h : Fits32 n) : (Constant.int n).checked = .ok (.int n) := by
  obtain ⟨hlow, hhigh⟩ := h
  exact if_neg (by omega)

theorem checked_of_not_fits (h : ¬Fits32 n) :
    (Constant.int n).checked = .error (.badNumber (toString n)) :=
  if_pos (by unfold Fits32 at h; omega)

/-- The constant of an integer literal is the integer, unless that is text beyond 64 bits. -/
theorem numberConstant_of_literal (h : IntegerLiteral node n) :
    numberConstant node = .ok (.int n) ∨ node.value? = none ∧ fitsInt64 n = false ∧
      ((∃ text, numberConstant node = .error (.badNumber text)) ∨
        ∃ bits, numberConstant node = .ok (.float bits)) := by
  cases h with
  | value hvalue => exact .inl (by simp [numberConstant, hvalue])
  | @text token hvalue htext hspells =>
      obtain ⟨hfits, hlarge⟩ := Number.readToken?_of_spells hspells
      cases h : fitsInt64 n with
      | true => exact .inl (by simp [numberConstant, hvalue, htext, hfits h])
      | false =>
          refine .inr ⟨hvalue, rfl, ?_⟩
          rcases hlarge h with hnone | ⟨bits, hfloat⟩
          · exact .inl ⟨token, by simp [numberConstant, hvalue, htext, hnone]⟩
          · exact .inr ⟨bits, by simp [numberConstant, hvalue, htext, hfloat]⟩

theorem fitsInt64_of_fits32 (h : Fits32 n) : fitsInt64 n = true := by
  obtain ⟨hlow, hhigh⟩ := h
  simp only [fitsInt64, decide_eq_true_eq]
  omega

end Literals

/-! ## Integers in images -/

/-- Integers stand in the image of a tree as they were placed. -/
theorem integerAt_of_compileTree {settings : Settings} {root : Node} {c : CompiledScript}
    (h : compileTree settings root = .ok c) {n : Int} (hn : Fits32 n) {layout : Code.FunctionLayout}
    (hlayout : layout ∈ c.layouts) {p : Code.Placed} (hp : p ∈ layout.instructions)
    (hnumber : p.instruction = .number (.int n)) :
    integerAt settings.target c.image p.address = some (denoted settings.target n) := by
  obtain ⟨s, hbuild, hcompile⟩ := Control.except_bind_eq_ok.mp h
  obtain ⟨functions, -, hsettings, -, -⟩ := Control.exists_of_buildScript hbuild
  obtain ⟨nameHash, names, -, hfits, rfl⟩ := Script.compile_eq_ok hcompile
  obtain ⟨placed, hplaced, rfl, htarget, -⟩ := Control.exists_lowered_of_layout hbuild hlayout
  have hslice := Script.slice_function hplaced
  rw [← htarget] at hslice
  have hholds := Code.ScriptFunction.holds_code hslice hp (by rw [hnumber]; rfl)
  rw [hnumber] at hholds
  have htarget' : settings.target = placed.1.target := by rw [htarget, Script.target, hsettings]
  rw [htarget']
  exact Code.integerAt_of_holds (f := placed.1.frame s.tables) hn hholds

/-- Integer literals keep their value, as far as the machine has an instruction for it.  A literal that
fits 32 bits, with or without sign, is lowered to the integer; any other is a bad number, unless it is
text beyond 64 bits, which may be lowered to a number of single precision.  In the image of any tree an
integer is found as it is, but the legacy machine takes one that needs all 32 bits with sign.  So two
integers have the same code there only if they differ by the sign that is taken, and nowhere else. -/
theorem integer_literals_keep_value {node : Node} {n : Int} (hkind : node.is "numberLiteral")
    (hnode : IntegerLiteral node n) :
    (∀ macros context s,
      (Fits32 n → lowerNode macros node context s = .ok ((), withConstant s (.int n))) ∧
      (¬Fits32 n → (∃ text, lowerNode macros node context s = .error (.badNumber text)) ∨
        node.value? = none ∧ fitsInt64 n = false ∧ ∃ bits,
          lowerNode macros node context s = .ok ((), withConstant s (.float bits)))) ∧
    (Fits32 n → ∀ settings root c, compileTree settings root = .ok c →
      ∀ layout ∈ c.layouts, ∀ p ∈ layout.instructions, p.instruction = .number (.int n) →
        integerAt settings.target c.image p.address =
          some (if settings.target.isLegacy ∧ 2 ^ 31 ≤ n then n - 2 ^ 32 else n)) ∧
    (∀ (f : Frame) address m, Fits32 n → Fits32 m →
      f.code address (.number (.int n)) = f.code address (.number (.int m)) →
      n = m ∨ f.target.isLegacy ∧ (n = m + 2 ^ 32 ∨ m = n + 2 ^ 32)) := by
  refine ⟨fun macros context s => ?_, fun hn settings root c hcompile layout hlayout p hp hnumber =>
    integerAt_of_compileTree hcompile hn hlayout hp hnumber, fun f address m hn hm =>
    Code.eq_of_code_eq hn hm⟩
  rw [lowerNode_of_numberLiteral hkind]
  constructor
  · intro hn
    have hconstant : numberConstant node = .ok (.int n) :=
      (numberConstant_of_literal hnode).resolve_right fun hlarge => by
        rw [fitsInt64_of_fits32 hn] at hlarge
        exact Bool.noConfusion hlarge.2.1
    rw [lowerNumber_of_ok hconstant, checked_of_fits hn]
    rfl
  · intro hn
    rcases numberConstant_of_literal hnode with hint | ⟨hvalue, hlarge, ⟨text, herror⟩ | ⟨bits, hfloat⟩⟩
    · refine .inl ⟨toString n, ?_⟩
      rw [lowerNumber_of_ok hint, checked_of_not_fits hn]
      rfl
    · exact .inl ⟨text, lowerNumber_of_error herror⟩
    · refine .inr ⟨hvalue, hlarge, bits, ?_⟩
      rw [lowerNumber_of_ok hfloat]
      rfl

/-- A script whose function returns a number. -/
def returningScript (number : Node) : Node :=
  .mk "script" none none [
    .mk "function" (some "main") none [
      .mk "block" none none [.mk "return" none none [number]]]]

/-- The integer of a literal with a sign and zeros before its digits is found in the image. -/
theorem integer_literals_keep_value_negative :
    let node := Control.leafNode "numberLiteral" "-00070000"
    ∃ c, compileTree { target := .rev36Little } (returningScript node) = .ok c ∧
      ∃ layout ∈ c.layouts, ∃ p ∈ layout.instructions, p.instruction = .number (.int (-70000)) ∧
        integerAt .rev36Little c.image p.address = some (-70000) := by
  intro node
  have hspells : Spells ('-' :: "00070000".toList) (-70000) := by
    rw [show (70000 : Int) = Number.digitsValue "00070000".toList by decide +kernel]
    exact .minus (by decide) (by simp)
  obtain ⟨c, hcompile, hcheck⟩ := @Control.exists_of_compileTree { target := .rev36Little }
    (returningScript node) (fun c => decide (∃ layout ∈ c.layouts, ∃ p ∈ layout.instructions,
      p.instruction = .number (.int (-70000)))) (by decide +kernel)
  obtain ⟨layout, hlayout, p, hp, hnumber⟩ := of_decide_eq_true hcheck
  obtain ⟨-, hfound, -⟩ := @integer_literals_keep_value node _ rfl (.text rfl rfl hspells)
  exact ⟨c, hcompile, layout, hlayout, p, hp, hnumber,
    hfound (by constructor <;> decide) _ _ c hcompile layout hlayout p hp hnumber⟩

/-- On the legacy machine the least integer with sign and the one that needs all bits have the same
image, and text beyond 64 bits gives a number of single precision. -/
theorem large_integers_change_value :
    let literal := Control.leafNode "numberLiteral"
    (∃ c c', compileTree {} (returningScript (literal "2147483648")) = .ok c ∧
      compileTree {} (returningScript (literal "-2147483648")) = .ok c' ∧ c.image = c'.image) ∧
    ∀ s, lowerNode (macrosOf []) (literal "9223372036854775808") .plain s =
      .ok ((), withConstant s (.float 0x5F000000)) := by
  intro literal
  constructor
  · have hsame : (compileTree {} (returningScript (literal "2147483648"))).toOption.any (fun c =>
        (compileTree {} (returningScript (literal "-2147483648"))).toOption.any fun c' =>
          decide (c.image.toList = c'.image.toList)) = true := by
      decide +kernel
    obtain ⟨c, hcompile, hsame⟩ := Control.exists_of_any hsame
    obtain ⟨c', hcompile', hsame⟩ := Control.exists_of_any hsame
    exact ⟨c, c', hcompile, hcompile', Array.toList_inj.mp (of_decide_eq_true hsame)⟩
  · intro s
    have hconstant : numberConstant (literal "9223372036854775808") = .ok (.float 0x5F000000) := by
      decide +kernel
    rw [lowerNode_of_numberLiteral rfl, lowerNumber_of_ok hconstant]
    rfl

end GscAssembler
