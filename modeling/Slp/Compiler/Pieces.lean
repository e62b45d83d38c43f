import Slp.Compiler.Shape

/-!
# The pieces the compiler makes

`Shape.Made s`: `s` is put together from the pieces that `compile_node` makes.  Its instructions
have a constant exactly where the run loop looks for one, no instruction of its own addresses a
local variable, and the body of a closure is that of a syntax node (`made_shape`).  A property of
all compiled code is an induction over this.
-/

namespace Slp

namespace Opcode

/-- The opcodes that address a local variable. -/
def isLocal : Opcode → Bool
  | .loadLocal0 | .loadLocal1 | .loadLocal2 | .loadLocal3
  | .loadLocal4 | .loadLocal5 | .loadLocal6 | .loadLocal7
  | .storeLocal0 | .storeLocal1 | .storeLocal2 | .storeLocal3
  | .storeLocal4 | .storeLocal5 | .storeLocal6 | .storeLocal7
  | .loadLocal | .storeLocal | .referenceLocal => true
  | _ => false

/-- Where the operands of an instruction stand that are indexes of constants. -/
def constantOperands : Opcode → List ℕ
  | .pushConst | .loadGlobal | .storeGlobal | .storeCatch | .referenceGlobal
  | .unaryPredicate | .binaryPredicate | .negatedBinaryPredicate | .closure
  | .backtick | .classLiteral | .address => [1]
  | .callNamed => [2]
  | .bridgeRegister | .importOp => [1, 3]
  | _ => []

/-- An instruction of one or two bytes has no constant. -/
theorem constantOperands_of_length {o : Opcode} (h : o.length = 1 ∨ o.length = 2) :
    o.constantOperands = [] := by
  cases o <;> first | rfl | (exfalso; revert h; decide)

theorem constantOperands_of_isJump {o : Opcode} (h : o.isJump) : o.constantOperands = [] := by
  cases o <;> first | rfl | cases h

theorem isLocal_of_isJump {o : Opcode} (h : o.isJump) : o.isLocal = false := by
  cases o <;> first | rfl | cases h

/-- No instruction addresses both a local variable and a constant. -/
theorem isLocal_of_constantOperands {o : Opcode} (h : o.constantOperands ≠ []) :
    o.isLocal = false := by
  cases o <;> first | rfl | exact absurd rfl h

end Opcode

/-- The constant is not a function. -/
def Constant.isPlain : Constant → Bool
  | .function .. => false
  | _ => true

/-- The offsets of the two-byte operands when the first operand is at `p`. -/
def Operand.shortOffsets : ℕ → List Operand → List ℕ
  | _, [] => []
  | p, .byte _ :: rest => shortOffsets (p + 1) rest
  | p, .short _ :: rest | p, .const _ :: rest => p :: shortOffsets (p + 2) rest

/-- An instruction with these operands: it has indexes where the run loop reads them, and makes
no function a constant.  Only the missing path of an import is an index as it stands. -/
structure Opcode.Takes (o : Opcode) (operands : List Operand) : Prop where
  global : o.isLocal = false
  offsets : Operand.shortOffsets 1 operands = o.constantOperands
  plain : ∀ v, .const v ∈ operands → v.isPlain
  raw : ∀ k, .short k ∈ operands → o = .importOp

namespace Shape

/-- A shape as `compile_node` makes them. -/
def Made : Shape → Prop
  | .op o operands _ => o.Takes operands
  | .closure _ body => ∃ n, body = compileNode n
  | .seq a b | .branch _ _ a b | .whileLoop _ _ a b | .foreverLoop a b => a.Made ∧ b.Made
  | .guard _ _ a | .inTry a | .foreachLoop _ _ a => a.Made
  | .forLoop a b s => a.Made ∧ b.Made ∧ s.Made
  | _ => True

theorem made_op1 (o : Opcode) (h : o.length = 1) : (op1 o h).Made ↔ o.isLocal = false :=
  ⟨fun hm => hm.global,
    fun hlocal => ⟨hlocal, (Opcode.constantOperands_of_length (.inl h)).symm, nofun, nofun⟩⟩

theorem made_opByte (o : Opcode) (b : UInt8) (h : o.length = 2) :
    (opByte o b h).Made ↔ o.isLocal = false :=
  ⟨fun hm => hm.global,
    fun hlocal => ⟨hlocal, (Opcode.constantOperands_of_length (.inr h)).symm, by simp,
      by simp⟩⟩

theorem made_opConst (o : Opcode) (v : Constant) (h : o.length = 3) :
    (opConst o v h).Made ↔ o.constantOperands = [1] ∧ v.isPlain := by
  refine ⟨fun hm => ⟨hm.offsets.symm, hm.plain v List.mem_cons_self⟩, fun ⟨hconst, hplain⟩ => ?_⟩
  refine ⟨Opcode.isLocal_of_constantOperands (by simp [hconst]), hconst.symm, fun w hw => ?_,
    by simp⟩
  cases List.mem_singleton.1 hw
  exact hplain

theorem takes_callNamed (count : UInt8) (name : Bytes) :
    Opcode.callNamed.Takes [.byte count, .const (.string name)] :=
  ⟨rfl, rfl, by simp [Constant.isPlain], by simp⟩

end Shape

/-! ### Leaves -/

theorem isLocal_binaryOpcode (op : TokenType) : (binaryOpcode op).isLocal = false := by
  cases op <;> rfl

theorem isLocal_assignmentOperationOpcode (op : TokenType) :
    (assignmentOperationOpcode op).isLocal = false := by
  cases op <;> rfl

section

open Shape

attribute [local simp] Shape.all Made made_op1 made_opByte made_opConst takes_callNamed
  Constant.isPlain isLocal_binaryOpcode isLocal_assignmentOperationOpcode

namespace Shape

theorem made_assignmentOperation (op : TokenType) : (assignmentOperation op).Made := by
  unfold assignmentOperation
  split <;> simp +decide

theorem made_unaryOperation (op : Token) : (unaryOperation op).Made := by
  unfold unaryOperation
  split <;> simp +decide

theorem made_step (op : TokenType) : (step op).Made := by
  unfold step
  split <;> simp +decide

theorem made_tupleElement (op : TokenType) (single : Bool) (i : ℕ) (element : Node) :
    (tupleElement op single i element).Made := by
  unfold tupleElement
  cases element.assignedName? with
  | none => trivial
  | some name =>
    dsimp only
    split
    · simp +decide
    · split <;> simp +decide

theorem made_tupleElements (op : TokenType) (single : Bool) :
    ∀ es, (tupleElements op single es).Made
  | [] => trivial
  | (element, i) :: rest =>
    ⟨made_tupleElement op single i element, made_tupleElements op single rest⟩

theorem made_reverse (count : ℕ) : (reverse count).Made := by
  unfold reverse
  split <;> simp +decide

theorem made_register (keyword identifier : Option Bytes) :
    (Shape.register keyword identifier).Made := by
  cases keyword <;> cases identifier <;>
    first | trivial | exact ⟨rfl, rfl, by simp [Constant.isPlain], by simp⟩

theorem made_importOp (target path : Option Bytes) : (importOp target path).Made := by
  cases target <;> cases path <;>
    first | trivial | exact ⟨rfl, rfl, by simp [Constant.isPlain], by simp⟩

theorem made_storeForeach (name : Bytes) : (storeForeach name).Made := by
  simp +decide [storeForeach]

theorem made_failAbove (count : ℕ) (message : String) : (failAbove count message).Made := by
  unfold failAbove
  split <;> simp +decide

end Shape

/-! ### Syntax nodes -/

attribute [local simp] made_assignmentOperation made_unaryOperation made_step made_tupleElements
  made_reverse made_register made_importOp made_storeForeach made_failAbove

theorem made_binop {token : Token} {negate : Bool} {left right : Node}
    (hl : (shape left).Made) (hr : (shape right).Made) :
    (shape (.binop token negate left right)).Made := by
  obtain ⟨type, text⟩ := token
  cases type <;> cases negate <;> simp +decide [shape, hl, hr]

theorem made_call {target : Node} {args : List Node} (ht : (shape target).Made)
    (ha : (shapeReversed args).Made)
    (hat : ∀ absent : Shape, absent.Made → ∀ k, (shapeArgumentAt absent args k).Made) :
    (shape (.call target args)).Made := by
  have h0 := hat skip trivial 0
  have h1 := hat (opConst .pushConst (.num 1)) (by simp +decide) 1
  have h2 := hat (op1 .pushNull) (by simp +decide) 2
  by_cases hiff : isIffCall target
  · by_cases hargs : args.isEmpty
    · simp +decide [shape, hiff, hargs]
    · by_cases hp : Node.assertConditionIsPredicate (args.head?.map Node.argumentValue) <;>
        simp +decide [shape, hiff, hargs, hp, h0, h1, h2]
  · cases hid : target.identifier? <;> simp +decide [shape, hiff, hid, ht, ha]

theorem made_arg {name : Option Node} {value : Node} (hn : (shapeOr skip name).Made)
    (hv : (shape value).Made) : (shape (.arg name value)).Made := by
  cases hp : passedByName? name value with
  | some s => simp +decide [shape, hp]
  | none =>
    cases hna : name.bind Node.assignedName? <;> cases hva : value.variableName? <;>
      by_cases hs : name.isSome <;> simp +decide [shape, hp, hna, hva, hs, hn, hv]

theorem made_objExpr {target : Node} {message : Option Node} {args : List Node}
    (ht : (shape target).Made) (hm : (shapeOr skip message).Made)
    (ha : (shapeReversed args).Made) : (shape (.objExpr target message args)).Made := by
  cases hid : target.identifier? <;> cases hmid : message.bind Node.identifier? <;>
    by_cases hs : message.isSome <;> simp +decide [shape, hid, hmid, hs, ht, hm, ha]

mutual

theorem made_shape : ∀ n, (shape n).Made
  | .script statements => by
    simp only [shape, made_shapeStatements]
  | .block statements => by
    simp only [shape, made_shapeStatements]
  | .boolean b => by
    cases b <;> simp +decide [shape]
  | .null => by
    simp +decide [shape]
  | .number isDouble v => by
    cases isDouble <;> simp +decide [shape]
  | .long v => by
    simp +decide [shape]
  | .string s => by
    simp +decide [shape]
  | .align width value => by
    simp +decide [shape, made_shape width, made_shape value]
  | .scalar s => by
    simp +decide [shape]
  | .array s => by
    simp +decide [shape]
  | .hashtable s => by
    simp +decide [shape]
  | .identifier s => by
    simp +decide [shape]
  | .binop _ _ left right => made_binop (made_shape left) (made_shape right)
  | .unaryop token operand punned => by
    have ho := made_shape operand
    simp only [shape]
    split
    · cases operand.stepName? punned <;> simp +decide [ho]
    · simp +decide [ho]
  | .assignment type left right => by
    have hr := made_shape right
    cases left with
    | index container element =>
      have hc := made_shapeContainer (Node.autovivifyKind container) container
        (shape container) (made_shape container)
      have he := made_shape element
      by_cases hop : type = .equal <;> simp +decide [shape, hc, he, hr, hop]
    | lvalueTuple elements => simp +decide [shape, hr]
    | _ =>
      by_cases hop : type = .equal <;> simp +decide [shape, Node.assignedName?, Node.variableName?, hr, hop]
  | .ifStmt condition thenBranch elseBranch => by
    simp +decide [shape, made_shape condition, made_shape thenBranch,
      made_shapeOr skip trivial elseBranch]
  | .whileStmt condition body => by
    simp +decide [shape, made_shape condition, made_shape body]
  | .forStmt initializer condition increment body => by
    have hi := made_shapePopped initializer
    have hs := made_shapePopped increment
    have hb := made_shape body
    cases condition with
    | none => simp +decide [shape, hi, hs, hb]
    | some condition => simp +decide [shape, hi, hs, hb, made_shape condition]
  | .foreachStmt index value generator body => by
    cases index <;> simp +decide [shape, made_shape generator, made_shape body]
  | .assignLoop value generator body => by
    simp +decide [shape, made_shape generator, made_shape body]
  | .call target args =>
    made_call (made_shape target) (made_shapeReversed args) fun absent h =>
      made_shapeArgumentAt absent h args
  | .arg name value => made_arg (made_shapeOr skip trivial name) (made_shape value)
  | .index container element => by
    simp +decide [shape, made_shape container, made_shape element]
  | .objExpr target message args =>
    made_objExpr (made_shape target) (made_shapeOr skip trivial message)
      (made_shapeReversed args)
  | .envBridge keyword identifier body => by
    exact ⟨⟨body, rfl⟩, made_register keyword identifier⟩
  | .tryCatch body value handler => by
    have hb := made_shape body
    have hh := made_shapeOr (op1 .pushNull) (by simp +decide) handler
    cases value <;> simp +decide [shape, hb, hh]
  | .returnStmt value => by
    simp +decide [shape, made_shapeOr (op1 .pushNull) (by simp +decide) value]
  | .throwStmt value => by
    simp +decide [shape, made_shapeOr (op1 .pushNull) (by simp +decide) value]
  | .assertStmt value message => by
    have hv := made_shapeOr (op1 .pushNull) (by simp +decide) value
    have hm := made_shapeOr (opConst .pushConst (.string (ascii "assertion failed"))) (by simp +decide)
      message
    by_cases h : Node.assertConditionIsPredicate value
    · by_cases h' : Node.conditionIsExplicitPredicate value <;> simp +decide [shape, hv, hm, h, h']
    · simp +decide [shape, hm, h]
  | .yieldStmt value => by
    simp +decide [shape, made_shapeOr (op1 .pushNull) (by simp +decide) value]
  | .breakStmt => by
    simp +decide [shape]
  | .continueStmt => by
    simp +decide [shape]
  | .halt => by
    simp +decide [shape]
  | .done => by
    simp +decide [shape]
  | .callcc value => by
    simp +decide [shape, made_shapeOr skip trivial value]
  | .localStmt value => by
    have hv := made_shapeOr (op1 .pushNull) (by simp +decide) value
    by_cases h : value.isSome <;> simp +decide [shape, hv, h]
  | .thisStmt value => by
    have hv := made_shapeOr (op1 .pushNull) (by simp +decide) value
    by_cases h : value.isSome <;> simp +decide [shape, hv, h]
  | .importStmt target path => by
    simp +decide [shape]
  | .backtick s => by
    simp +decide [shape]
  | .classLiteral s => by
    simp +decide [shape]
  | .address s => by
    simp +decide [shape]
  | .lvalueTuple elements => by
    simp +decide [shape, made_shapeAll elements]
  | .nop => by
    simp +decide [shape]

theorem made_shapeOr (absent : Shape) (h : absent.Made) : ∀ n, (shapeOr absent n).Made
  | none => by simpa only [shapeOr] using h
  | some n => by simpa only [shapeOr] using made_shape n

theorem made_shapeStatements (script : Bool) : ∀ ns, (shapeStatements script ns).Made
  | [] => by simp +decide [shapeStatements]
  | n :: rest => by
    have hn := made_shape n
    have hr := made_shapeStatements script rest
    by_cases h : n.leavesNothing <;> simp +decide [shapeStatements, hn, hr, h]

theorem made_shapeAll : ∀ ns, (shapeAll ns).Made
  | [] => by simp +decide [shapeAll]
  | n :: rest => by simp +decide [shapeAll, made_shape n, made_shapeAll rest]

theorem made_shapePopped : ∀ ns, (shapePopped ns).Made
  | [] => by simp +decide [shapePopped]
  | n :: rest => by simp +decide [shapePopped, made_shape n, made_shapePopped rest]

theorem made_shapeReversed : ∀ ns, (shapeReversed ns).Made
  | [] => by simp +decide [shapeReversed]
  | n :: rest => by simp +decide [shapeReversed, made_shape n, made_shapeReversed rest]

theorem made_shapeArgumentValue : ∀ (self : Shape) (n : Node), self.Made →
    (shapeArgumentValue self n).Made
  | self, n, h => by
    cases n with
    | arg name value => simpa only [shapeArgumentValue] using made_shape value
    | _ => simpa only [shapeArgumentValue] using h

theorem made_shapeArgumentAt (absent : Shape) (h : absent.Made) :
    ∀ ns k, (shapeArgumentAt absent ns k).Made
  | [], _ => by simpa only [shapeArgumentAt] using h
  | n :: _, 0 => by
    simp only [shapeArgumentAt]
    exact made_shapeArgumentValue _ n (made_shape n)
  | _ :: rest, k + 1 => by
    simp only [shapeArgumentAt]
    exact made_shapeArgumentAt absent h rest k

theorem made_shapeContainer (kind : UInt8) : ∀ (n : Node) (self : Shape), self.Made →
    (shapeContainer kind n self).Made
  | n, self, h => by
    cases n with
    | index container element =>
      simp +decide [shapeContainer, made_shape element,
        made_shapeContainer kind container _ (made_shape container)]
    | _ => simpa only [shapeContainer] using h

end

end

end Slp
