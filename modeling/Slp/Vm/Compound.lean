import Slp.Compiler.Compile
import Slp.Vm.Taint

/-!
# Compound assignment

A compound assignment to a variable or an element runs the plain opcode of its operator; one to a
parenthesised variable runs `OP_TUPLE_COMPOUND`, whose helper `evaluate_assignment_operator` has the
operators written out a second time.  The results are the same but for two things: the helper's
result of a bitwise operator or a shift is tainted where the plain opcode's is not, and the helper
joins texts of `2 ^ 32 - 1` bytes, for which the plain opcode's buffer is too small
(`compoundAgrees_iff`).
-/

namespace Slp

namespace OperandValue

variable {D O : Type} (A : DoubleArith D) (describe : O → ℕ → Option Bytes)

/-- `evaluate_assignment_operator`. -/
def evaluateAssignmentOperator (opcode : Opcode) (left right : OperandValue D O) :
    Except Fault (OperandValue D O) :=
  let kind := widestNumericKind A left right
  match opcode with
  | .add => .ok <| match kind with
    | .double => double (A.add (left.asNumber A) (right.asNumber A))
    | .long => long (left.numericLongValue A + right.numericLongValue A)
    | .int => ofInt32 A (left.numericIntValue A + right.numericIntValue A)
  | .subtract => .ok <| match kind with
    | .double => double (A.sub (left.asNumber A) (right.asNumber A))
    | .long => long (left.numericLongValue A - right.numericLongValue A)
    | .int => ofInt32 A (left.numericIntValue A - right.numericIntValue A)
  | .multiply => .ok <| match kind with
    | .double => double (A.mul (left.asNumber A) (right.asNumber A))
    | .long => long (left.numericLongValue A * right.numericLongValue A)
    | .int => ofInt32 A (left.numericIntValue A * right.numericIntValue A)
  | .divide => match kind with
    | .double => .ok (double (A.div (left.asNumber A) (right.asNumber A)))
    | .long =>
      if right.numericLongValue A = 0 then .error (.runtimeError "Division by zero.")
      else .ok (long (quotient (left.numericLongValue A) (right.numericLongValue A)))
    | .int =>
      if right.numericIntValue A = 0 then .error (.runtimeError "Division by zero.")
      else .ok (ofInt32 A (quotient (left.numericIntValue A) (right.numericIntValue A)))
  | .power => .ok (double (A.pow (left.asNumber A) (right.asNumber A)))
  | .concat => match left.stringify A describe, right.stringify A describe with
    | some leftText, some rightText =>
      -- the length wraps; the size of the buffer, one more, does not
      if leftText.length + rightText.length < 2 ^ 32 then .ok (string (leftText ++ rightText))
      else .error .undefined
    | _, _ => .error (.runtimeError "Out of memory.")
  | .bitAnd => .ok <| if kind = .long
      then long (left.numericLongValue A &&& right.numericLongValue A)
      else ofInt32 A (left.numericIntValue A &&& right.numericIntValue A)
  | .bitOr => .ok <| if kind = .long
      then long (left.numericLongValue A ||| right.numericLongValue A)
      else ofInt32 A (left.numericIntValue A ||| right.numericIntValue A)
  | .bitXor => .ok <| if kind = .long
      then long (left.numericLongValue A ^^^ right.numericLongValue A)
      else ofInt32 A (left.numericIntValue A ^^^ right.numericIntValue A)
  | .lshift => .ok <| if left.numericKind A = .long
      then long (left.numericLongValue A <<< (right.numericIntValue A &&& 63).toNat)
      else ofInt32 A (left.numericIntValue A <<< (right.numericIntValue A &&& 31).toNat)
  | .rshift => .ok <| if left.numericKind A = .long
      then long ((left.numericLongValue A).sshiftRight (right.numericIntValue A &&& 63).toNat)
      else ofInt32 A ((left.numericIntValue A).sshiftRight (right.numericIntValue A &&& 31).toNat)
  | _ => .error (.runtimeError "Unsupported tuple assignment operator.")

/-- The value of `OP_TUPLE_COMPOUND` for a target and an operand. -/
def compound (opcode : Opcode) (left right : OperandValue D O) :
    Except Fault (OperandValue D O) :=
  (evaluateAssignmentOperator A describe opcode left right).map (propagateTaintBinary · left right)

/-- The loop of `OP_TUPLE_COMPOUND` over the elements of an array from index `i` on: the elements
afterwards, and the fault that ended it. -/
def compoundElements (opcode : Opcode) (operand : ℕ → OperandValue D O) :
    ℕ → List (OperandValue D O) → List (OperandValue D O) × Option Fault
  | _, [] => ([], none)
  | i, current :: rest => match compound A describe opcode current (operand i) with
    | .error fault => (current :: rest, some fault)
    | .ok value =>
      let (values, fault) := compoundElements opcode operand (i + 1) rest
      (value :: values, fault)

variable (elements : O → Option (List (OperandValue D O)))

/-- The elements of an array; none for another value. -/
def arrayElements : OperandValue D O → Option (List (OperandValue D O))
  | other o => elements o
  | _ => none

/-- `OP_TUPLE_COMPOUND` on the stack, topmost value first: the stack afterwards, and the elements of
the target where it is an array. -/
def tupleCompound (opcode : Opcode) :
    List (OperandValue D O) → Except Fault (List (OperandValue D O)) × Option (List (OperandValue D O))
  | left :: right :: rest => match left.arrayElements elements with
    | some targets =>
      let operand i := match right.arrayElements elements with
        | some sources => sources.getD i null
        | none => right
      match compoundElements A describe opcode operand 0 targets with
      | (values, some fault) => (.error fault, some values)
      | (values, none) => (.ok (left :: rest), some values)
    | none =>
      let operand := match right.arrayElements elements with
        | some sources => sources.getD 0 null
        | none => right
      ((compound A describe opcode left operand).map (· :: rest), none)
  | _ => (.error .undefined, none)

end OperandValue

/-- The operator instruction of an opcode that a compound assignment may have. -/
def Opcode.operator? : Opcode → Option Operator
  | .add => some .add
  | .subtract => some .subtract
  | .multiply => some .multiply
  | .divide => some .divide
  | .power => some .power
  | .concat => some .concat
  | .bitAnd => some .bitAnd
  | .bitOr => some .bitOr
  | .bitXor => some .bitXor
  | .lshift => some .lshift
  | .rshift => some .rshift
  | _ => none

namespace OperandValue

variable {D O : Type} (A : DoubleArith D) (describe : O → ℕ → Option Bytes)
  (elements : O → Option (List (OperandValue D O)))

/-- The tuple instruction leaves on the stack what the plain opcode of an assignment operator
leaves, or fails as it does. -/
def CompoundAgrees (op : TokenType) (left right : OperandValue D O) : Prop :=
  ∀ operator, (assignmentOperationOpcode op).operator? = some operator → ∀ rest,
    tupleCompound A describe elements (assignmentOperationOpcode op) (left :: right :: rest) =
      (operator.exec A describe (right :: left :: rest), none)

/-- The operators whose plain opcode loses the taint. -/
def losesTaint : TokenType → Bool
  | .andEqual | .orEqual | .xorEqual | .lshiftEqual | .rshiftEqual => true
  | _ => false

/-- Two texts that are together as long as a text can be. -/
def Overlong (left right : OperandValue D O) : Prop :=
  ∃ leftText rightText, left.stringify A describe = some leftText ∧
    right.stringify A describe = some rightText ∧ leftText.length + rightText.length + 1 = 2 ^ 32

/-! ### Operator by operator -/

section Agreement

variable (left right : OperandValue D O)

theorem evaluate_add : evaluateAssignmentOperator A describe .add left right =
    .ok (arithmetic A A.add (· + ·) (· + ·) left right) := by
  unfold evaluateAssignmentOperator arithmetic
  cases widestNumericKind A left right <;> rfl

theorem evaluate_subtract : evaluateAssignmentOperator A describe .subtract left right =
    .ok (arithmetic A A.sub (· - ·) (· - ·) left right) := by
  unfold evaluateAssignmentOperator arithmetic
  cases widestNumericKind A left right <;> rfl

theorem evaluate_multiply : evaluateAssignmentOperator A describe .multiply left right =
    .ok (arithmetic A A.mul (· * ·) (· * ·) left right) := by
  unfold evaluateAssignmentOperator arithmetic
  cases widestNumericKind A left right <;> rfl

theorem evaluate_divide : evaluateAssignmentOperator A describe .divide left right =
    divideResult A left right := by
  unfold evaluateAssignmentOperator divideResult
  cases widestNumericKind A left right <;> rfl

theorem evaluate_bitAnd : evaluateAssignmentOperator A describe .bitAnd left right =
    .ok (bitwise A (· &&& ·) (· &&& ·) left right) := by
  unfold evaluateAssignmentOperator bitwise
  cases widestNumericKind A left right <;> rfl

theorem evaluate_bitOr : evaluateAssignmentOperator A describe .bitOr left right =
    .ok (bitwise A (· ||| ·) (· ||| ·) left right) := by
  unfold evaluateAssignmentOperator bitwise
  cases widestNumericKind A left right <;> rfl

theorem evaluate_bitXor : evaluateAssignmentOperator A describe .bitXor left right =
    .ok (bitwise A (· ^^^ ·) (· ^^^ ·) left right) := by
  unfold evaluateAssignmentOperator bitwise
  cases widestNumericKind A left right <;> rfl

theorem evaluate_lshift : evaluateAssignmentOperator A describe .lshift left right =
    .ok (shift A (· <<< ·) (· <<< ·) left right) := by
  unfold evaluateAssignmentOperator shift
  cases left.numericKind A <;> rfl

theorem evaluate_rshift : evaluateAssignmentOperator A describe .rshift left right =
    .ok (shift A BitVec.sshiftRight BitVec.sshiftRight left right) := by
  unfold evaluateAssignmentOperator shift
  cases left.numericKind A <;> rfl

variable {A describe left right}

/-- The helper's result is wrapped where the plain opcode's is bare, unless there is nothing to
wrap. -/
theorem compound_eq_bare_iff {op : Opcode} {v : OperandValue D O}
    (h : evaluateAssignmentOperator A describe op left right = .ok v) (hv : v.IsFresh) :
    compound A describe op left right = .ok v ↔
      left.isTainted = false ∧ right.isTainted = false := by
  rw [compound, h, ← Bool.or_eq_false_iff]
  constructor
  · intro he
    have he' : propagateTaintBinary v left right = v := by injection he
    rw [← isTainted_propagateTaintBinary hv, he', hv.not_isTainted]
  · intro hn
    simp only [Except.map, propagateTaintBinary, hn, Bool.false_eq_true, if_false]

theorem overlong_iff {leftText rightText : Bytes} (hl : left.stringify A describe = some leftText)
    (hr : right.stringify A describe = some rightText) :
    Overlong A describe left right ↔ leftText.length + rightText.length + 1 = 2 ^ 32 := by
  constructor
  · rintro ⟨_, _, hl', hr', h⟩
    rw [hl] at hl'
    rw [hr] at hr'
    cases hl'
    cases hr'
    exact h
  · exact fun h => ⟨_, _, hl, hr, h⟩

/-- The two concatenations differ on texts for which only the size of the plain one's buffer
wraps. -/
theorem compound_eq_concat_iff :
    compound A describe .concat left right = concat A describe left right ↔
      ¬ Overlong A describe left right := by
  unfold compound concat evaluateAssignmentOperator concatResult
  cases hl : left.stringify A describe with
  | none =>
    refine iff_of_true rfl ?_
    rintro ⟨_, _, hl', -⟩
    rw [hl] at hl'
    cases hl'
  | some leftText =>
    cases hr : right.stringify A describe with
    | none =>
      refine iff_of_true rfl ?_
      rintro ⟨_, _, -, hr', -⟩
      rw [hr] at hr'
      cases hr'
    | some rightText =>
      rw [overlong_iff hl hr]
      dsimp only
      by_cases hlt : leftText.length + rightText.length + 1 < 2 ^ 32
      · rw [if_pos (by omega), if_pos hlt]
        exact iff_of_true rfl (by omega)
      · by_cases heq : leftText.length + rightText.length + 1 = 2 ^ 32
        · rw [if_pos (by omega), if_neg hlt]
          exact iff_of_false (by rintro ⟨⟩) (not_not.2 heq)
        · rw [if_neg (by omega), if_neg hlt]
          exact iff_of_true rfl heq

variable {elements}

/-- For operands that are no arrays the two instructions agree when their values do. -/
theorem compoundAgrees_iff_eq {op : TokenType} {operator : Operator}
    {f : OperandValue D O → OperandValue D O → Except Fault (OperandValue D O)}
    (hop : (assignmentOperationOpcode op).operator? = some operator)
    (hf : operator.exec A describe = Operator.binary f)
    (hl : left.arrayElements elements = none) (hr : right.arrayElements elements = none) :
    CompoundAgrees A describe elements op left right ↔
      compound A describe (assignmentOperationOpcode op) left right = f left right := by
  have htuple : ∀ rest,
      tupleCompound A describe elements (assignmentOperationOpcode op) (left :: right :: rest) =
        ((compound A describe (assignmentOperationOpcode op) left right).map (· :: rest), none) := by
    intro rest
    simp only [tupleCompound, hl, hr]
  have hplain : ∀ rest, operator.exec A describe (right :: left :: rest) =
      (f left right).map (· :: rest) := by
    intro rest
    rw [hf, Operator.binary]
  constructor
  · intro h
    have h := h operator hop []
    rw [htuple, hplain] at h
    have h : (compound A describe (assignmentOperationOpcode op) left right).map (· :: []) =
        (f left right).map (· :: []) := (Prod.mk.injEq _ _ _ _ ▸ h).1
    cases hc : compound A describe (assignmentOperationOpcode op) left right <;>
      cases hp : f left right <;> rw [hc, hp] at h <;> cases h <;> rfl
  · intro h operator' hop' rest
    obtain rfl : operator = operator' := Option.some.inj (hop.symm.trans hop')
    rw [htuple, hplain, h]

/-- An operator whose two implementations are one function of the operands. -/
theorem compoundAgrees_of_eq {op : TokenType} {operator : Operator}
    {f : OperandValue D O → OperandValue D O → Except Fault (OperandValue D O)}
    (hop : (assignmentOperationOpcode op).operator? = some operator)
    (hf : operator.exec A describe = Operator.binary f)
    (hl : left.arrayElements elements = none) (hr : right.arrayElements elements = none)
    (h : compound A describe (assignmentOperationOpcode op) left right = f left right)
    (hloses : losesTaint op = false) (hcat : op ≠ .catEqual) :
    CompoundAgrees A describe elements op left right ↔
      (losesTaint op = true → left.isTainted = false ∧ right.isTainted = false) ∧
        (op = .catEqual → ¬ Overlong A describe left right) := by
  refine iff_of_true ((compoundAgrees_iff_eq hop hf hl hr).2 h) ⟨fun ht => ?_, fun hc => ?_⟩
  · rw [hloses] at ht
    cases ht
  · exact absurd hc hcat

/-- An operator whose plain opcode pushes the helper's result bare. -/
theorem compoundAgrees_of_bare {op : TokenType} {operator : Operator}
    {f : OperandValue D O → OperandValue D O → Except Fault (OperandValue D O)}
    {v : OperandValue D O} (hop : (assignmentOperationOpcode op).operator? = some operator)
    (hf : operator.exec A describe = Operator.binary f)
    (hl : left.arrayElements elements = none) (hr : right.arrayElements elements = none)
    (h : evaluateAssignmentOperator A describe (assignmentOperationOpcode op) left right = .ok v)
    (hbare : f left right = .ok v) (hv : v.IsFresh) (hloses : losesTaint op = true)
    (hcat : op ≠ .catEqual) :
    CompoundAgrees A describe elements op left right ↔
      (losesTaint op = true → left.isTainted = false ∧ right.isTainted = false) ∧
        (op = .catEqual → ¬ Overlong A describe left right) := by
  rw [compoundAgrees_iff_eq hop hf hl hr, hbare, compound_eq_bare_iff h hv]
  exact ⟨fun hn => ⟨fun _ => hn, fun hc => absurd hc hcat⟩, fun hn => hn.1 hloses⟩

/-- **The two implementations of a compound assignment agree** on operands that are no arrays just
when the operator is none of the bitwise ones and the shifts or neither operand is tainted, and the
texts it joins are not of `2 ^ 32 - 1` bytes together. -/
theorem compoundAgrees_iff {op : TokenType} (hop : assignmentOperationOpcode op ≠ .nop)
    (hl : left.arrayElements elements = none) (hr : right.arrayElements elements = none) :
    CompoundAgrees A describe elements op left right ↔
      (losesTaint op = true → left.isTainted = false ∧ right.isTainted = false) ∧
        (op = .catEqual → ¬ Overlong A describe left right) := by
  cases op with
  | plusEqual =>
    refine compoundAgrees_of_eq (f := add A) rfl rfl hl hr ?_ rfl (by decide)
    rw [compound, assignmentOperationOpcode, evaluate_add]
    rfl
  | minusEqual =>
    refine compoundAgrees_of_eq (f := subtract A) rfl rfl hl hr ?_ rfl (by decide)
    rw [compound, assignmentOperationOpcode, evaluate_subtract]
    rfl
  | timesEqual =>
    refine compoundAgrees_of_eq (f := multiply A) rfl rfl hl hr ?_ rfl (by decide)
    rw [compound, assignmentOperationOpcode, evaluate_multiply]
    rfl
  | divEqual =>
    refine compoundAgrees_of_eq (f := divide A) rfl rfl hl hr ?_ rfl (by decide)
    rw [compound, assignmentOperationOpcode, evaluate_divide]
    rfl
  | expEqual => exact compoundAgrees_of_eq (f := power A) rfl rfl hl hr rfl rfl (by decide)
  | catEqual =>
    rw [compoundAgrees_iff_eq rfl (f := concat A describe) rfl hl hr]
    refine compound_eq_concat_iff.trans ⟨fun h => ⟨?_, fun _ => h⟩, fun h => h.2 rfl⟩
    rintro ⟨⟩
  | andEqual =>
    exact compoundAgrees_of_bare (f := bitAnd A) rfl rfl hl hr (evaluate_bitAnd A describe left right)
      rfl (isFresh_bitwise A _ _ left right) rfl (by decide)
  | orEqual =>
    exact compoundAgrees_of_bare (f := bitOr A) rfl rfl hl hr (evaluate_bitOr A describe left right)
      rfl (isFresh_bitwise A _ _ left right) rfl (by decide)
  | xorEqual =>
    exact compoundAgrees_of_bare (f := bitXor A) rfl rfl hl hr (evaluate_bitXor A describe left right)
      rfl (isFresh_bitwise A _ _ left right) rfl (by decide)
  | lshiftEqual =>
    exact compoundAgrees_of_bare (f := lshift A) rfl rfl hl hr (evaluate_lshift A describe left right)
      rfl (isFresh_shift A _ _ left right) rfl (by decide)
  | rshiftEqual =>
    exact compoundAgrees_of_bare (f := rshift A) rfl rfl hl hr (evaluate_rshift A describe left right)
      rfl (isFresh_shift A _ _ left right) rfl (by decide)
  | _ => exact absurd rfl hop

end Agreement

/-- A sum agrees, the taint of its operand included. -/
theorem compoundAgrees_iff_plus :
    assignmentOperationOpcode .plusEqual ≠ .nop ∧
      (CompoundAgrees Operator.wholeNumbers Empty.elim (fun _ => none) .plusEqual
          (.tainted (.num 5)) (.num 3) ↔
        (losesTaint .plusEqual = true →
            isTainted (D := ℤ) (O := Empty) (.tainted (.num 5)) = false ∧
              isTainted (D := ℤ) (O := Empty) (.num 3) = false) ∧
          (TokenType.plusEqual = .catEqual →
            ¬ Overlong Operator.wholeNumbers Empty.elim (.tainted (.num 5)) (.num 3))) :=
  ⟨by decide, compoundAgrees_iff (by decide) rfl rfl⟩

/-- The bitwise and of a tainted number is bare from the plain opcode and tainted from the helper. -/
theorem not_compoundAgrees_and :
    ¬ CompoundAgrees Operator.wholeNumbers Empty.elim (fun _ => none) .andEqual
      (.tainted (.num 5)) (.num 3) := by
  intro h
  have h := h .bitAnd rfl []
  revert h
  decide

end OperandValue

end Slp
