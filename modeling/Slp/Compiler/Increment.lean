import Slp.Compiler.Run
import Slp.Vm.Taint

/-!
# Increment and compound assignment

`++` and `--` beside `+= 1` and `-= 1` on the same operand: the code the compiler writes for the
two and what it does to the operand stack and the variables.

The two agree on a variable whose value is not tainted, when there is room for the constant `1`
beside it (`stepAgrees_iff`).  `OP_INCREMENT` and `OP_DECREMENT` push a bare number, where `OP_ADD`
and `OP_SUBTRACT` hand on the taint; and on an element the compiler takes the container's pointer
for a name.
-/

namespace Slp

/-! ### One -/

/-- The number one is finite and an integer of every width. -/
structure DoubleArith.OneLaw {D : Type} (A : DoubleArith D) : Prop where
  isfinite : A.isfinite (A.ofInt 1) = true
  trunc : A.eq (A.ofInt 1) (A.trunc (A.ofInt 1)) = true
  toInt32 : A.toInt32 (A.ofInt 1) = 1
  toInt64 : A.toInt64 (A.ofInt 1) = 1

namespace OperandValue

variable {D O : Type} {A : DoubleArith D}

/-- The constant one. -/
def one (A : DoubleArith D) : OperandValue D O := num (A.ofInt 1)

theorem widestNumericKind_one (hA : A.OneLaw) (v : OperandValue D O) :
    widestNumericKind A v (one A) = v.numericKind A := by
  have hone : (one A : OperandValue D O).numericKind A = .int := by
    simp [one, numericKind, unwrapTaint, hA.isfinite, hA.trunc]
  rw [widestNumericKind, hone]
  cases v.numericKind A <;> rfl

/-- With one as the right operand an instruction on two operands is one on the left operand. -/
theorem arithmetic_one (hA : A.OneLaw) (onDouble : D → D → D)
    (onLong : BitVec 64 → BitVec 64 → BitVec 64) (onInt : BitVec 32 → BitVec 32 → BitVec 32)
    (v : OperandValue D O) :
    arithmetic A onDouble onLong onInt v (one A) =
      arithmeticUnary A (onDouble · (A.ofInt 1)) (onLong · 1) (onInt · 1) v := by
  have hlong : (one A : OperandValue D O).numericLongValue A = 1 := hA.toInt64
  have hint : (one A : OperandValue D O).numericIntValue A = 1 := hA.toInt32
  rw [arithmetic, widestNumericKind_one hA, hlong, hint]
  rfl

theorem isTainted_one : (one A : OperandValue D O).isTainted = false := rfl

/-- `OP_ADD` with one is `OP_INCREMENT` that keeps the taint. -/
theorem add_one (hA : A.OneLaw) (v : OperandValue D O) :
    add A v (one A) = (increment A v).map (propagateTaintUnary · v) := by
  rw [add, arithmetic_one hA, propagateTaintBinary, isTainted_one, Bool.or_false]
  rfl

/-- `OP_SUBTRACT` with one is `OP_DECREMENT` that keeps the taint. -/
theorem subtract_one (hA : A.OneLaw) (v : OperandValue D O) :
    subtract A v (one A) = (decrement A v).map (propagateTaintUnary · v) := by
  rw [subtract, arithmetic_one hA, propagateTaintBinary, isTainted_one, Bool.or_false]
  rfl

/-- Handing on the taint changes a bare result just when there is taint. -/
theorem propagateTaintUnary_eq_self {result v : OperandValue D O} (h : result.isTainted = false) :
    propagateTaintUnary result v = result ↔ v.isTainted = false := by
  unfold propagateTaintUnary taintValue
  rw [h]
  cases hv : v.isTainted with
  | false => simp
  | true =>
    simp only [if_true, Bool.false_eq_true, if_false, Bool.true_eq_false, iff_false]
    intro heq
    rw [← heq] at h
    cases h

end OperandValue

/-! ### The operators of the machine -/

/-- The operator of an arithmetic opcode. -/
def operatorOf? : Opcode → Option Operator
  | .add => some .add
  | .subtract => some .subtract
  | .multiply => some .multiply
  | .divide => some .divide
  | .modulo => some .modulo
  | .power => some .power
  | .negate => some .negate
  | .concat => some .concat
  | .align => some .align
  | .repeat => some .repeat
  | .spaceship => some .spaceship
  | .bitAnd => some .bitAnd
  | .bitOr => some .bitOr
  | .bitXor => some .bitXor
  | .bitNot => some .bitNot
  | .lshift => some .lshift
  | .rshift => some .rshift
  | .increment => some .increment
  | .decrement => some .decrement
  | _ => none

/-- The machine computes with these operators on these numbers. -/
structure Machine.Computes {D O S : Type} (M : Machine (OperandValue D O) S) (A : DoubleArith D)
    (describe : O → ℕ → Option Bytes) : Prop where
  one : M.constant (.num 1) = OperandValue.one A
  operate {o : Opcode} {x : Operator} (h : operatorOf? o = some x)
    (stack : List (OperandValue D O)) : M.operate o stack = (x.exec A describe stack).toOption

/-- The opcode of `++` or `--`. -/
def stepOpcode (op : TokenType) : Opcode := if op = .inc then .increment else .decrement

/-- The compound assignment that stands beside `++` or `--`. -/
def stepAssignment (op : TokenType) : TokenType := if op = .inc then .plusEqual else .minusEqual

section

variable {D O S : Type} {A : DoubleArith D} {describe : O → ℕ → Option Bytes}
variable {M : Machine (OperandValue D O) S}

/-- What `++` or `--` makes of a value. -/
def stepValue (A : DoubleArith D) (op : TokenType) (v : OperandValue D O) : OperandValue D O :=
  if op = .inc then v.arithmeticUnary A (A.add · (A.ofInt 1)) (· + 1) (· + 1)
  else v.arithmeticUnary A (A.sub · (A.ofInt 1)) (· - 1) (· - 1)

theorem isTainted_stepValue (op : TokenType) (v : OperandValue D O) :
    (stepValue A op v).isTainted = false := by
  unfold stepValue
  split <;> exact (OperandValue.isFresh_arithmeticUnary A _ _ _ v).not_isTainted

theorem Machine.Computes.step (hM : M.Computes A describe) (op : TokenType)
    (v : OperandValue D O) (stack : List (OperandValue D O)) :
    M.operate (stepOpcode op) (v :: stack) = some (stepValue A op v :: stack) := by
  unfold stepOpcode stepValue
  split
  · rw [hM.operate rfl]
    rfl
  · rw [hM.operate rfl]
    rfl

theorem Machine.Computes.assignment (hA : A.OneLaw) (hM : M.Computes A describe) (op : TokenType)
    (v : OperandValue D O) (stack : List (OperandValue D O)) :
    M.operate (assignmentOperationOpcode (stepAssignment op)) (.one A :: v :: stack) =
      some ((stepValue A op v).propagateTaintUnary v :: stack) := by
  unfold stepAssignment stepValue
  split
  · rw [show assignmentOperationOpcode .plusEqual = .add from rfl, hM.operate rfl]
    simp only [Operator.exec, Operator.binary, OperandValue.add_one hA]
    rfl
  · rw [show assignmentOperationOpcode .minusEqual = .subtract from rfl, hM.operate rfl]
    simp only [Operator.exec, Operator.binary, OperandValue.subtract_one hA]
    rfl

end

/-! ### The code -/

/-- An operand the parser accepts beside `++` and `--`: a variable, where a lone sigil is none, or
an element. -/
inductive IsOperand : Node → Prop where
  | scalar (s : Bytes) : IsOperand (.scalar s)
  | array (s : Bytes) (h : s ≠ ascii "@") : IsOperand (.array s)
  | hashtable (s : Bytes) (h : s ≠ ascii "%") : IsOperand (.hashtable s)
  | index (container element : Node) : IsOperand (.index container element)

/-- The compiler after `++` or `--`. -/
def compileStep (op : Token) (operand : Node) (punned : Option Bytes) (c : Compiler) : Compiler :=
  exec (compileNode (.unaryop op operand punned)) c

/-- The compiler after `+= 1` or `-= 1`. -/
def compileStepAssignment (op : Token) (operand : Node) (c : Compiler) : Compiler :=
  exec (compileNode (.assignment (stepAssignment op.type) operand (.number false 1))) c

section

variable {op : Token} {operand : Node} {name : Bytes} {c : Compiler}

theorem stepName?_eq (h : IsOperand operand) (hv : operand.variableName? = some name)
    (punned : Option Bytes) : operand.stepName? punned = some name := by
  cases h with
  | scalar s => exact hv
  | array s hs => rwa [Node.variableName?, if_neg hs] at hv
  | hashtable s hs => rwa [Node.variableName?, if_neg hs] at hv
  | index container element => cases hv

theorem compileStep_eq (hop : op.type = .inc ∨ op.type = .dec) {punned : Option Bytes}
    (hn : operand.stepName? punned = some name) :
    compileStep op operand punned c = exec (namedVariable name true)
      (exec (emitOp (stepOpcode op.type)) (exec (namedVariable name false) c)) := by
  rw [compileStep, compileNode, if_pos hop, hn]
  rfl

theorem compileNode_assignment {left right : Node} {op : TokenType}
    (h : left.variableName? = some name) :
    compileNode (.assignment op left right) = (do
      if op ≠ .equal then namedVariable name false
      compileNode right
      emitAssignmentOperation op
      namedVariable name true) := by
  cases left with
  | scalar s | array s | hashtable s =>
    cases h
    rw [compileNode]
    · rfl
    · intros; contradiction
    · intros; contradiction
  | _ => cases h

theorem emitAssignmentOperation_step (op : TokenType) :
    emitAssignmentOperation (stepAssignment op) =
      emitOp (assignmentOperationOpcode (stepAssignment op)) := by
  unfold stepAssignment
  split <;> rfl

theorem compileStepAssignment_eq (hv : operand.variableName? = some name) :
    compileStepAssignment op operand c = exec (namedVariable name true)
      (exec (emitOp (assignmentOperationOpcode (stepAssignment op.type)))
        (exec (emitConstant (.num 1)) (exec (namedVariable name false) c))) := by
  have hne : stepAssignment op.type ≠ .equal := by
    unfold stepAssignment
    split <;> decide
  have hone : compileNode (.number false 1) = emitConstant (.num 1) := by
    rw [compileNode]
    rfl
  rw [compileStepAssignment, compileNode_assignment hv, if_pos hne, hone,
    emitAssignmentOperation_step]
  rfl

/-- The instructions of `++` or `--` on a variable. -/
def stepInstrs (c : Compiler) (name : Bytes) (op : TokenType) : List Instr :=
  [variableInstr c name false, .operate (stepOpcode op), variableInstr c name true]

/-- The instructions of `+= 1` or `-= 1` on a variable. -/
def stepAssignmentInstrs (c : Compiler) (name : Bytes) (op : TokenType) : List Instr :=
  [variableInstr c name false,
    .pushConst (constantIndex (variableConstants c name) (.num 1)),
    .operate (assignmentOperationOpcode (stepAssignment op)), variableInstr c name true]

theorem ofOpcode_stepOpcode (op : TokenType) :
    Instr.ofOpcode (stepOpcode op) = .operate (stepOpcode op) := by
  unfold stepOpcode
  split <;> decide

theorem ofOpcode_stepAssignment (op : TokenType) :
    Instr.ofOpcode (assignmentOperationOpcode (stepAssignment op)) =
      .operate (assignmentOperationOpcode (stepAssignment op)) := by
  unfold stepAssignment
  split <;> decide

theorem writes_step (hop : op.type = .inc ∨ op.type = .dec) (h : IsOperand operand)
    (hv : operand.variableName? = some name) (punned : Option Bytes) :
    Writes c (compileStep op operand punned c) (stepInstrs c name op.type) := by
  rw [compileStep_eq hop (stepName?_eq h hv punned)]
  have hload := writes_namedVariable name false c
  have hlen : (stepOpcode op.type).length = 1 := by
    unfold stepOpcode
    split <;> rfl
  have hstep := writes_emitOp (stepOpcode op.type) hlen (exec (namedVariable name false) c)
  rw [ofOpcode_stepOpcode] at hstep
  have hstore := writes_namedVariable name true
    (exec (emitOp (stepOpcode op.type)) (exec (namedVariable name false) c))
  have hconstants := constants_namedVariable name false c
  rw [variableInstr_congr (hstep.locals.trans hload.locals) (hconstants ▸ hstep.constants)]
    at hstore
  exact (hload.trans hstep).trans hstore

theorem writes_stepAssignment (hv : operand.variableName? = some name)
    (he : (compileStepAssignment op operand c).error = none) :
    Writes c (compileStepAssignment op operand c) (stepAssignmentInstrs c name op.type) := by
  rw [compileStepAssignment_eq hv] at he ⊢
  replace he := (straight_variable name true _).error he
  rw [error_emitOp] at he
  obtain ⟨-, hone, -⟩ := emitConstant_ok he
  have hload := writes_namedVariable name false c
  have hconstants := constants_namedVariable name false c
  have hop := writes_emitOp (assignmentOperationOpcode (stepAssignment op.type))
    (Shape.length_assignmentOperationOpcode _)
    (exec (emitConstant (.num 1)) (exec (namedVariable name false) c))
  rw [ofOpcode_stepAssignment] at hop
  have hstore := writes_namedVariable name true
    (exec (emitOp (assignmentOperationOpcode (stepAssignment op.type)))
      (exec (emitConstant (.num 1)) (exec (namedVariable name false) c)))
  rw [variableInstr_congr (hop.locals.trans (hone.locals.trans hload.locals))
    (hconstants ▸ hone.constants.trans hop.constants)] at hstore
  rw [hconstants] at hone
  exact ((hload.trans hone).trans hop).trans hstore

end

/-! ### The law -/

/-- On this operand `++` or `--` is `+= 1` or `-= 1`.  The chunks hold the constants of the code and
perhaps later ones. -/
structure StepAgrees {V S : Type} (M : Machine V S) (op : Token) (operand : Node) (c : Compiler)
    (stack : List V) (s : S) : Prop where
  /-- The compiler reads no union member but the operand's own. -/
  ownFields : ∀ p q, compileNode (.unaryop op operand p) = compileNode (.unaryop op operand q)
  same : ∀ p cs cs', (compileStep op operand p c).constants <+: cs →
    (compileStepAssignment op operand c).constants <+: cs' →
    M.run cs ((compileStep op operand p c).code.drop c.code.length) stack s =
      M.run cs' ((compileStepAssignment op operand c).code.drop c.code.length) stack s

/-- The operand is a variable, and unless the stack is full there is room for two values and the
variable's value is not tainted. -/
def Steppable {D O S : Type} (M : Machine (OperandValue D O) S) (operand : Node) (c : Compiler)
    (stack : List (OperandValue D O)) (s : S) : Prop :=
  ∃ name, operand.variableName? = some name ∧
    (stack.length < M.stackMax → stack.length + 1 < M.stackMax ∧
      (M.loadVariable c name s).1.isTainted = false)

/-- On an element the compiler takes for a name what it finds in the place of one. -/
theorem not_ownFields_index {op : Token} (hop : op.type = .inc ∨ op.type = .dec)
    (container element : Node) :
    ¬ ∀ p q, compileNode (.unaryop op (.index container element) p) =
      compileNode (.unaryop op (.index container element) q) := by
  intro h
  have hnone : (compileStep op (.index container element) none (.init [] false false)).code.getLast?
      = some (stepOpcode op.type).byte := by
    rw [compileStep, compileNode, if_pos hop]
    simp only [Node.stepName?, Node.stringVal?, Option.map_none, exec_bind, exec_emitOp,
      List.getLast?_concat]
    rfl
  have hsome : (compileStep op (.index container element) (some []) (.init [] false false)).code.getLast?
      = some 0 := by
    have hn : (Node.index container element).stepName? (some []) = some [] := rfl
    rw [compileStep_eq hop hn]
    unfold stepOpcode
    split <;> decide
  rw [compileStep, h none (some []), ← compileStep, hsome] at hnone
  unfold stepOpcode at hnone
  split at hnone <;> revert hnone <;> decide

section

variable {D O S : Type} {A : DoubleArith D} {describe : O → ℕ → Option Bytes}
variable {M : Machine (OperandValue D O) S} {op : Token} {operand : Node} {name : Bytes}
variable {c : Compiler} {cs : List Constant} {stack : List (OperandValue D O)} {s s' : S}
variable {v : OperandValue D O}

/-- What `++` or `--` on a variable does. -/
theorem run_step (hM : M.Computes A describe) (hop : op.type = .inc ∨ op.type = .dec)
    (h : IsOperand operand) (hv : operand.variableName? = some name) (p : Option Bytes)
    (hcs : (compileStep op operand p c).constants <+: cs)
    (hl : M.loadVariable c name s = (v, s')) :
    M.run cs ((compileStep op operand p c).code.drop c.code.length) stack s =
      if stack.length < M.stackMax then
        .ok (stepValue A op.type v :: stack, M.storeVariable c name (stepValue A op.type v) s')
      else .error (.overflow s') := by
  have hconstants : variableConstants c name <+: cs := by
    rw [← constants_namedVariable name false]
    rw [compileStep_eq hop (stepName?_eq h hv p)] at hcs
    exact (writes_namedVariable name true (exec (emitOp _) _)).constants.trans hcs
  have hload := M.step_load hconstants stack s
  rw [hl] at hload
  rw [M.run_writes (writes_step hop h hv p), stepInstrs]
  split
  · rename_i hroom
    rw [M.push_of_lt hroom] at hload
    rw [M.steps_of_ok hload, M.steps_of_ok (M.step_operate (hM.step op.type v stack) s'),
      M.steps_of_ok (M.step_store hconstants _ stack s')]
    rfl
  · rename_i hfull
    rw [M.push_of_le (Nat.not_lt.1 hfull)] at hload
    exact M.steps_of_error hload _

/-- What `+= 1` or `-= 1` on a variable does. -/
theorem run_stepAssignment (hA : A.OneLaw) (hM : M.Computes A describe)
    (hv : operand.variableName? = some name)
    (he : (compileStepAssignment op operand c).error = none)
    (hcs : (compileStepAssignment op operand c).constants <+: cs)
    (hl : M.loadVariable c name s = (v, s')) :
    M.run cs ((compileStepAssignment op operand c).code.drop c.code.length) stack s =
      if stack.length + 1 < M.stackMax then
        .ok ((stepValue A op.type v).propagateTaintUnary v :: stack,
          M.storeVariable c name ((stepValue A op.type v).propagateTaintUnary v) s')
      else .error (.overflow s') := by
  have hw := writes_stepAssignment hv he
  rw [compileStepAssignment_eq hv] at hcs he
  replace he := (straight_variable name true _).error he
  rw [error_emitOp] at he
  obtain ⟨-, hone, htable⟩ := emitConstant_ok he
  rw [constants_namedVariable] at htable
  have hconstants := (writes_namedVariable name true (exec (emitOp _) _)).constants.trans hcs
  have hget := getElem?_insertConstant (Constant.equal_num 1) (htable ▸ hconstants)
  replace hconstants := hone.constants.trans hconstants
  rw [constants_namedVariable] at hconstants
  have hload := M.step_load hconstants stack s
  have hpush := M.step_pushConst hget (v :: stack) s'
  rw [hl] at hload
  rw [hM.one] at hpush
  rw [M.run_writes hw, stepAssignmentInstrs]
  by_cases hroom : stack.length < M.stackMax
  · rw [M.push_of_lt hroom] at hload
    rw [M.steps_of_ok hload]
    split
    · rename_i hroom'
      rw [M.push_of_lt (by simpa using hroom')] at hpush
      rw [M.steps_of_ok hpush,
        M.steps_of_ok (M.step_operate (hM.assignment hA op.type v stack) s'),
        M.steps_of_ok (M.step_store hconstants _ stack s')]
      rfl
    · rename_i hfull
      rw [M.push_of_le (by simpa using hfull)] at hpush
      exact M.steps_of_error hpush _
  · rw [M.push_of_le (Nat.not_lt.1 hroom)] at hload
    rw [if_neg (by omega)]
    exact M.steps_of_error hload _

/-- `++` and `--` do what `+= 1` and `-= 1` do exactly on a variable that is not tainted, where the
stack has room for the second operand. -/
theorem stepAgrees_iff (hA : A.OneLaw) (hM : M.Computes A describe)
    (hop : op.type = .inc ∨ op.type = .dec) (h : IsOperand operand)
    (he : (compileStepAssignment op operand c).error = none) (stack : List (OperandValue D O))
    (s : S) : StepAgrees M op operand c stack s ↔ Steppable M operand c stack s := by
  constructor
  · intro hagrees
    cases hv : operand.variableName? with
    | none =>
      cases h with
      | index container element => exact absurd hagrees.ownFields (not_ownFields_index hop _ _)
      | _ => cases hv
    | some name =>
      obtain ⟨v, s', hl⟩ : ∃ v s', M.loadVariable c name s = (v, s') := ⟨_, _, rfl⟩
      refine ⟨name, hv, fun hroom => ?_⟩
      have hsame := hagrees.same none _ _ (List.prefix_refl _) (List.prefix_refl _)
      rw [run_step hM hop h hv none (List.prefix_refl _) hl,
        run_stepAssignment hA hM hv he (List.prefix_refl _) hl, if_pos hroom] at hsame
      split at hsame
      · rename_i hroom'
        injection hsame with hsame
        injection hsame with hstack
        injection hstack with hvalue
        rw [hl]
        exact ⟨hroom', (OperandValue.propagateTaintUnary_eq_self
          (isTainted_stepValue op.type v)).1 hvalue.symm⟩
      · cases hsame
  · rintro ⟨name, hv, hstep⟩
    obtain ⟨v, s', hl⟩ : ∃ v s', M.loadVariable c name s = (v, s') := ⟨_, _, rfl⟩
    constructor
    · intro p q
      rw [compileNode, compileNode, if_pos hop, if_pos hop, stepName?_eq h hv, stepName?_eq h hv]
    · intro p cs cs' hcs hcs'
      rw [run_step hM hop h hv p hcs hl, run_stepAssignment hA hM hv he hcs' hl]
      split
      · rename_i hroom
        obtain ⟨hroom', htaint⟩ := hstep hroom
        rw [hl] at htaint
        rw [if_pos hroom', (OperandValue.propagateTaintUnary_eq_self
          (isTainted_stepValue op.type v)).2 htaint]
      · rename_i hfull
        rw [if_neg (by omega)]

end

/-! ### One variable -/

open Operator (wholeNumbers)

/-- A machine whose state is the value of the only variable. -/
def oneVariable : Machine (OperandValue ℤ Empty) (OperandValue ℤ Empty) where
  stackMax := 4096
  null := .null
  constant
    | .num v => .num v.num
    | _ => .null
  loadLocal _ s := s
  storeLocal _ v _ := v
  loadGlobal _ s := (s, s)
  storeGlobal _ v _ := v
  elements? _ _ := none
  index v := v.asNumber wholeNumbers
  index_constant i _ := Rat.num_natCast i
  operate o stack := (operatorOf? o).bind fun x => (x.exec wholeNumbers Empty.elim stack).toOption

theorem oneLaw_wholeNumbers : wholeNumbers.OneLaw := ⟨rfl, rfl, rfl, rfl⟩

theorem computes_oneVariable : oneVariable.Computes wholeNumbers Empty.elim :=
  ⟨rfl, fun h stack => by simp only [oneVariable, h, Option.bind_some]⟩

/-- `$x++` with 5 in `$x`. -/
theorem stepAgrees_scalar :
    StepAgrees oneVariable ⟨.inc, []⟩ (.scalar (ascii "x")) (.init [] false false) [] (.num 5) :=
  (stepAgrees_iff oneLaw_wholeNumbers computes_oneVariable (.inl rfl) (.scalar _) (by decide) _ _).2
    ⟨_, rfl, fun _ => ⟨by decide, rfl⟩⟩

/-- `$a[0]++`, and `$x++` with a tainted 5 in `$x`. -/
theorem not_stepAgrees :
    ¬ StepAgrees oneVariable ⟨.inc, []⟩ (.index (.scalar (ascii "a")) (.number false 0))
        (.init [] false false) [] .null ∧
      ¬ StepAgrees oneVariable ⟨.inc, []⟩ (.scalar (ascii "x")) (.init [] false false) []
        (.tainted (.num 5)) := by
  constructor
  · exact fun h => not_ownFields_index (.inl rfl) _ _ h.ownFields
  · intro h
    have hsame := h.same none _ _ (List.prefix_refl _) (List.prefix_refl _)
    revert hsame
    decide

end Slp
