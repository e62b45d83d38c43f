import Mathlib.Algebra.GroupWithZero.Nat
import Slp.Compiler.Compile

/-!
# The control structure of compiled code

A `Shape` is the code of a syntax node with its jumps as structure: a guarded piece, a two-way
branch, a loop, a `break` or `continue` of the innermost loop.  `Shape.emit` writes it down with
the jumps of `slp_compiler.c`, and `compileNode_eq` says that `compile_node` does just that with
the shape of its node, so that a law of the compiler is an induction over shapes.
-/

namespace Slp

/-- The operands of an instruction. -/
inductive Operand where
  | byte (b : UInt8)
  | short (v : ℤ)
  | const (v : Constant)

namespace Operand

/-- The bytes of an operand. -/
def size : Operand → ℕ
  | .byte _ => 1
  | .short _ | .const _ => 2

/-- Writes an operand. -/
def emit : Operand → Emit Unit
  | .byte b => emitByte b
  | .short v => emitShort v
  | .const v => do emitShort (← makeConstant v)

end Operand

/-- The code of a syntax node.  An instruction has operands of the right length, and the opcode
before a placeholder is one of a jump. -/
inductive Shape where
  | skip
  | fail (message : String)
  | op (o : Opcode) (operands : List Operand)
      (h : (operands.map Operand.size).sum + 1 = o.length)
  | var (name : Bytes) (assign : Bool)
  | reference (name : Bytes)
  /-- The return of an explicit `return`, which depends on the kind of the function. -/
  | ret
  /-- The end of a statement that leaves a value. -/
  | endStatement (script last : Bool)
  /-- A closure with the compilation of its body. -/
  | closure (keyword : Option Bytes) (body : Emit Unit)
  | seq (a b : Shape)
  /-- A jump over `a`. -/
  | guard (o : Opcode) (h : o.isJump) (a : Shape)
  /-- A jump to `b`, which is jumped over at the end of `a`. -/
  | branch (o : Opcode) (h : o.isJump) (a b : Shape)
  /-- A piece with one more handler entered. -/
  | inTry (a : Shape)
  | brk
  | cont
  /-- `head` leaves the value that `o` tests to end the loop. -/
  | whileLoop (o : Opcode) (h : o.isJump) (head body : Shape)
  | forLoop (head body step : Shape)
  | foreverLoop (body step : Shape)
  | foreachLoop (o : Opcode) (h : o.isJump) (body : Shape)

namespace Shape

/-- An instruction without operands. -/
def op1 (o : Opcode) (h : o.length = 1 := by decide) : Shape := .op o [] (by simp [h])

/-- An instruction with the index of a constant. -/
def opConst (o : Opcode) (v : Constant) (h : o.length = 3 := by decide) : Shape :=
  .op o [.const v] (by simp [h, Operand.size])

/-- An instruction with a one-byte operand. -/
def opByte (o : Opcode) (b : UInt8) (h : o.length = 2 := by decide) : Shape :=
  .op o [.byte b] (by simp [h, Operand.size])

/-- Shapes one after the other. -/
def all : List Shape → Shape
  | [] => .skip
  | a :: rest => .seq a (all rest)

/-- Operands one after the other. -/
def emitOperands : List Operand → Emit Unit
  | [] => pure ()
  | x :: rest => do
    x.emit
    emitOperands rest

/-- Writes a shape. -/
def emit : Shape → Emit Unit
  | .skip => pure ()
  | .fail message => compilerError message
  | .op o operands _ => do
    emitOp o
    emitOperands operands
  | .var name assign => namedVariable name assign
  | .reference name => referenceVariable name
  | .ret => do emitOp (if (← get).inlineBody then .inlineReturn else .return)
  | .endStatement script last => do
    emitOp (if (← get).replMode && script && last then .return else .pop)
  | .closure keyword body => emitClosure keyword body
  | .seq a b => do
    a.emit
    b.emit
  | .guard o _ a => do
    let j ← emitJump o
    a.emit
    patchJump j
  | .branch o _ a b => do
    let j ← emitJump o
    a.emit
    let k ← emitJump .jump
    patchJump j
    b.emit
    patchJump k
  | .inTry a => do
    modify fun c => { c with tryDepth := c.tryDepth + 1 }
    a.emit
    modify fun c => { c with tryDepth := c.tryDepth - 1 }
  | .brk => do if 0 ≤ (← get).loopStart then emitBreak
  | .cont => do if 0 ≤ (← get).loopStart then emitContinue
  | .whileLoop o _ head body => do
    let outer ← enterLoop
    head.emit
    let exitJump ← emitJump o
    emitOp .pop
    body.emit
    emitLoop (← get).loopStart
    patchJump exitJump
    emitOp .pop
    patchBreaks
    patchContinues
    closeLoop outer.code.length (← here)
    leaveLoop outer
  | .forLoop head body step => do
    let outer ← enterLoop
    head.emit
    let exitJump ← emitJump .jumpIfFalse
    emitOp .pop
    body.emit
    let incStart ← here
    step.emit
    emitLoop (← get).loopStart
    patchJump exitJump
    emitOp .pop
    writeContinues incStart
    patchBreaks
    closeLoop incStart (← here)
    leaveLoop outer
  | .foreverLoop body step => do
    let outer ← enterLoop
    body.emit
    let incStart ← here
    step.emit
    emitLoop (← get).loopStart
    writeContinues incStart
    patchBreaks
    closeLoop incStart (← here)
    leaveLoop outer
  | .foreachLoop o _ body => do
    let outer ← enterLoop
    let exitJump ← emitJump o
    body.emit
    patchContinues
    emitLoop (← get).loopStart
    patchJump exitJump
    patchBreaks
    closeLoop outer.code.length (← here)
    emitOp .pop
    emitOp .pop
    leaveLoop outer

theorem emit_op1 (o : Opcode) (h : o.length = 1) : (op1 o h).emit = emitOp o := by
  simp [op1, emit, emitOperands]

theorem emit_opConst (o : Opcode) (v : Constant) (h : o.length = 3) :
    (opConst o v h).emit = emitWith o v := by
  simp [opConst, emit, emitOperands, emitWith, Operand.emit]

theorem emit_opByte (o : Opcode) (b : UInt8) (h : o.length = 2) :
    (opByte o b h).emit = (do emitOp o; emitByte b) := by
  simp [opByte, emit, emitOperands, Operand.emit]

/-! ### Leaves -/

theorem length_binaryOpcode (op : TokenType) : (binaryOpcode op).length = 1 := by
  cases op <;> rfl

theorem length_assignmentOperationOpcode (op : TokenType) :
    (assignmentOperationOpcode op).length = 1 := by
  cases op <;> rfl

/-- The operation of a compound assignment. -/
def assignmentOperation (op : TokenType) : Shape :=
  if assignmentOperationOpcode op = .nop then skip
  else op1 (assignmentOperationOpcode op) (length_assignmentOperationOpcode op)

theorem emit_assignmentOperation (op : TokenType) :
    (assignmentOperation op).emit = emitAssignmentOperation op := by
  cases op <;> rfl

/-- The operation of a unary operator other than `++` and `--`. -/
def unaryOperation (op : Token) : Shape :=
  match op.type with
  | .minus => op1 .negate
  | .bang => op1 .not
  | .unaryPredicateBridge => opConst .unaryPredicate (.string op.text)
  | _ => skip

theorem emit_unaryOperation (op : Token) :
    (unaryOperation op).emit = emitUnaryOperation op := by
  obtain ⟨type, text⟩ := op
  cases type <;> first | exact emit_op1 _ _ | exact emit_opConst _ _ _ | rfl

/-- The increment or decrement of `++` or `--`. -/
def step (op : TokenType) : Shape := if op = .inc then op1 .increment else op1 .decrement

theorem emit_step (op : TokenType) :
    (step op).emit = emitOp (if op = .inc then .increment else .decrement) := by
  unfold step
  split <;> exact emit_op1 _ _

/-- One element of an assignment to a tuple. -/
def tupleElement (op : TokenType) (single : Bool) (i : ℕ) (element : Node) : Shape :=
  match element.assignedName? with
  | none => skip
  | some name =>
    all [op1 .dup,
      if op ≠ .equal && single then
        all [.var name false,
          opByte .tupleCompound (assignmentOperationOpcode op).byte]
      else
        all [opConst .pushConst (.num i), op1 .tupleGet,
          if op ≠ .equal then
            all [.var name false, op1 .swap,
              op1 (assignmentOperationOpcode op) (length_assignmentOperationOpcode op)]
          else skip],
      .var name true, op1 .pop]

theorem emit_tupleElement (op : TokenType) (single : Bool) (i : ℕ) (element : Node) :
    (tupleElement op single i element).emit = emitTupleElement op single i element := by
  unfold tupleElement emitTupleElement
  cases element.assignedName? with
  | none => rfl
  | some name =>
    dsimp only
    split
    · simp only [all, emit, emit_op1, emit_opByte, bind_assoc, bind_pure_unit]
    · split
      · simp only [all, emit, emit_op1, emit_opConst, emitConstant, bind_assoc, bind_pure_unit]
      · simp only [all, emit, emit_op1, emit_opConst, emitConstant, bind_assoc, bind_pure_unit,
          pure_bind]

/-- The elements of an assignment to a tuple. -/
def tupleElements (op : TokenType) (single : Bool) : List (Node × ℕ) → Shape
  | [] => skip
  | (element, i) :: rest => seq (tupleElement op single i element) (tupleElements op single rest)

theorem emit_tupleElements (op : TokenType) (single : Bool) (es : List (Node × ℕ)) :
    (tupleElements op single es).emit =
      es.forM fun (element, i) => emitTupleElement op single i element := by
  induction es with
  | nil => rfl
  | cons e rest ih =>
    obtain ⟨element, i⟩ := e
    simp only [tupleElements, emit, emit_tupleElement, ih]
    rfl

/-- The reversal of the arguments of a call. -/
def reverse (count : ℕ) : Shape :=
  if count > 1 then opByte .reverse (UInt8.ofNat count) else skip

theorem emit_reverse (count : ℕ) : (reverse count).emit = emitReverse count := by
  unfold reverse emitReverse
  split
  · exact emit_opByte _ _ _
  · rfl

/-- The registration of a named bridge. -/
def register (keyword identifier : Option Bytes) : Shape :=
  match keyword, identifier with
  | some kw, some name =>
    .op .bridgeRegister [.const (.string kw), .const (.string name)] rfl
  | _, _ => skip

theorem emit_register (keyword identifier : Option Bytes) :
    (register keyword identifier).emit = emitRegister keyword identifier := by
  cases keyword with
  | none => rfl
  | some kw =>
    cases identifier with
    | none => rfl
    | some name =>
      simp only [register, emitRegister, emit, emitOperands, Operand.emit, bind_pure_unit,
        bind_assoc]

/-- `OP_IMPORT`. -/
def importOp (target path : Option Bytes) : Shape :=
  match target with
  | none => skip
  | some target =>
    match path with
    | some path => .op .importOp [.const (.string target), .const (.string path)] rfl
    | none => .op .importOp [.const (.string target), .short 0] rfl

theorem emit_importOp (target path : Option Bytes) :
    (importOp target path).emit = emitImport target path := by
  unfold importOp emitImport
  cases target with
  | none => rfl
  | some target =>
    cases path <;> simp only [emit, emitOperands, Operand.emit, bind_pure_unit, bind_assoc]

/-- Storing a foreach variable. -/
def storeForeach (name : Bytes) : Shape :=
  seq (opConst .storeGlobal (.string (Node.nameBuf (ascii "$" ++ name)))) (op1 .pop)

theorem emit_storeForeach (name : Bytes) :
    (storeForeach name).emit = storeForeachVariable name := by
  simp only [storeForeach, storeForeachVariable, emit, emit_op1, emit_opConst]

/-- The check of a count that has to fit in a byte. -/
def failAbove (count : ℕ) (message : String) : Shape :=
  if count > 255 then .fail message else skip

theorem emit_failAbove (count : ℕ) (message : String) :
    (failAbove count message).emit = checkCount count message := by
  unfold failAbove checkCount
  split <;> rfl

end Shape

/-! ### Syntax nodes -/

open Shape (skip seq all op1 opConst opByte assignmentOperation unaryOperation step tupleElements
  reverse register importOp storeForeach failAbove length_binaryOpcode)

mutual

/-- The shape of a syntax node. -/
def shape : Node → Shape
  | .script statements => shapeStatements true statements
  | .block statements => shapeStatements false statements
  | .boolean b => if b then op1 .pushTrue else op1 .pushFalse
  | .null => op1 .pushNull
  | .number isDouble v => opConst .pushConst (if isDouble then .double v else .num v)
  | .long v => opConst .pushConst (.long v)
  | .string s => opConst .pushConst (.string s)
  | .align width value => all [shape width, shape value, op1 .align]
  | .scalar s => .var (Node.nameBuf (ascii "$" ++ s)) false
  | .array s => .var (Node.nameBuf (if s = ascii "@" then s else ascii "@" ++ s)) false
  | .hashtable s =>
    .var (Node.nameBuf (if s = ascii "%" then s else ascii "%" ++ s)) false
  | .identifier _ => seq (.fail "Unknown expression") (op1 .pushNull)
  | .binop op negate left right =>
    match op.type with
    | .land => seq (shape left) (.guard .and rfl (shape right))
    | .lor => seq (shape left) (.guard .or rfl (shape right))
    | .binaryPredicateBridge =>
      all [shape left, shape right,
        if negate then opConst .negatedBinaryPredicate (.string op.text)
        else opConst .binaryPredicate (.string op.text)]
    | _ =>
      all [shape right, shape left, op1 .swap,
        op1 (binaryOpcode op.type) (length_binaryOpcode op.type)]
  | .unaryop op operand punned =>
    if op.type = .inc ∨ op.type = .dec then
      match operand.stepName? punned with
      | some name => all [.var name false, step op.type, .var name true]
      | none => seq (shape operand) (step op.type)
    else seq (shape operand) (unaryOperation op)
  | .assignment op (.index container element) right =>
    all [shapeContainer (Node.autovivifyKind container) container (shape container),
      shape element, if op ≠ .equal then all [op1 .dup2, op1 .indexGet] else skip,
      shape right, assignmentOperation op, op1 .indexSet]
  | .assignment op (.lvalueTuple elements) right =>
    seq (shape right) (tupleElements op (elements.length = 1) elements.zipIdx)
  | .assignment op left right =>
    match left.assignedName? with
    | none => skip
    | some name =>
      all [if op ≠ .equal then .var name false else skip, shape right,
        assignmentOperation op, .var name true]
  | .ifStmt condition thenBranch elseBranch =>
    seq (shape condition) (.branch .jumpIfFalse rfl (seq (op1 .pop) (shape thenBranch))
      (seq (op1 .pop) (shapeOr skip elseBranch)))
  | .whileStmt condition body => .whileLoop .jumpIfFalse rfl (shape condition) (shape body)
  | .forStmt initializer condition increment body =>
    seq (shapePopped initializer)
      (match condition with
      | some condition => .forLoop (shape condition) (shape body) (shapePopped increment)
      | none => .foreverLoop (shape body) (shapePopped increment))
  | .foreachStmt index value generator body =>
    all [shape generator, opConst .pushConst (.num 0),
      match index with
      | some index => .foreachLoop .foreachNext rfl
          (all [storeForeach value, storeForeach index, shape body])
      | none => .foreachLoop .foreachNextValue rfl
          (all [storeForeach value, op1 .pop, shape body])]
  | .assignLoop value generator body =>
    .whileLoop .jumpIfNull rfl
      (seq (shape generator) (.var (Node.nameBuf (ascii "$" ++ value)) true)) (shape body)
  | .call target args =>
    if isIffCall target then
      if args.isEmpty then op1 .pushNull
      else
        seq (if Node.assertConditionIsPredicate (args.head?.map Node.argumentValue) then
            shapeArgumentAt skip args 0
          else op1 .pushFalse)
          (.branch .jumpIfFalse rfl
            (seq (op1 .pop) (shapeArgumentAt (opConst .pushConst (.num 1)) args 1))
            (seq (op1 .pop) (shapeArgumentAt (op1 .pushNull) args 2)))
    else
      all [match target.identifier? with
        | some name => .var name false
        | none => shape target,
        shapeReversed args, failAbove args.length "Too many arguments in call.",
        reverse args.length,
        match target.identifier? with
        | some name =>
          .op .callNamed [.byte (UInt8.ofNat args.length), .const (.string name)] rfl
        | none => opByte .call (UInt8.ofNat args.length)]
  | .arg name value =>
    match passedByName? name value with
    | some s => all [opConst .pushConst (.string s), .reference s, op1 .buildKeyValue]
    | none =>
      all [match name.bind Node.assignedName? with
        | some s => opConst .pushConst (.string s)
        | none => shapeOr skip name,
        match value.variableName? with
        | some s => .reference s
        | none => shape value,
        if name.isSome then op1 .buildKeyValue else skip]
  | .index container element => all [shape container, shape element, op1 .indexGet]
  | .objExpr target message args =>
    all [match target.identifier? with
      | some name => .var name false
      | none => shape target,
      failAbove args.length "Too many arguments in object expression.",
      match message.bind Node.identifier? with
      | some s => opConst .pushConst (.string s)
      | none => shapeOr skip message,
      shapeReversed args, reverse args.length,
      if message.isSome then opByte .objExpr (UInt8.ofNat args.length)
      else opByte .call (UInt8.ofNat args.length)]
  | .envBridge keyword identifier body =>
    seq (.closure keyword (compileNode body)) (register keyword identifier)
  | .tryCatch body value handler =>
    .branch .pushHandler rfl (seq (.inTry (shape body)) (op1 .popHandler))
      (seq (match value with
        | some name => opConst .storeCatch (.string (Node.nameBuf (ascii "$" ++ name)))
        | none => skip)
        (shapeOr (op1 .pushNull) handler))
  | .returnStmt value => seq (shapeOr (op1 .pushNull) value) .ret
  | .throwStmt value => seq (shapeOr (op1 .pushNull) value) (op1 .throw)
  | .assertStmt value message =>
    seq (if Node.assertConditionIsPredicate value then
        seq (shapeOr (op1 .pushNull) value)
          (if Node.conditionIsExplicitPredicate value then skip
          else opConst .unaryPredicate (.string (ascii "-istrue")))
      else op1 .pushFalse)
      (.branch .jumpIfTrue rfl
        (all [op1 .pop, shapeOr (opConst .pushConst (.string (ascii "assertion failed"))) message,
          op1 .assert])
        (op1 .pop))
  | .yieldStmt value => seq (shapeOr (op1 .pushNull) value) (op1 .yield)
  | .breakStmt => .brk
  | .continueStmt => .cont
  | .halt => op1 .halt
  | .done => op1 .done
  | .callcc value =>
    seq (shapeOr skip value) (opByte .callcc (if value.isSome then 1 else 0))
  | .localStmt value =>
    seq (shapeOr (op1 .pushNull) value) (if value.isSome then op1 .local else skip)
  | .thisStmt value =>
    seq (shapeOr (op1 .pushNull) value) (if value.isSome then op1 .this else skip)
  | .importStmt target path => importOp target path
  | .backtick s => opConst .backtick (.string s)
  | .classLiteral s => opConst .classLiteral (.string s)
  | .address s => opConst .address (.string s)
  | .lvalueTuple elements =>
    all [shapeAll elements,
      failAbove elements.length "Too many elements in tuple assignment.",
      opByte .unpackTuple (UInt8.ofNat elements.length)]
  | .nop => op1 .nop

/-- The shape of an optional child. -/
def shapeOr (absent : Shape) : Option Node → Shape
  | none => absent
  | some n => shape n

/-- The shape of the statements of a script or a block. -/
def shapeStatements (script : Bool) : List Node → Shape
  | [] => skip
  | n :: rest =>
    all [shape n, if n.leavesNothing then skip else .endStatement script rest.isEmpty,
      shapeStatements script rest]

/-- The shape of nodes in their order. -/
def shapeAll : List Node → Shape
  | [] => skip
  | n :: rest => seq (shape n) (shapeAll rest)

/-- The shape of the initializers or increments of a `for`. -/
def shapePopped : List Node → Shape
  | [] => skip
  | n :: rest => all [shape n, op1 .pop, shapePopped rest]

/-- The shape of arguments, last to first. -/
def shapeReversed : List Node → Shape
  | [] => skip
  | n :: rest => seq (shapeReversed rest) (shape n)

/-- The shape of the value of an argument. -/
def shapeArgumentValue (self : Shape) : Node → Shape
  | .arg _ value => shape value
  | _ => self

/-- The shape of the argument of `iff` with this number. -/
def shapeArgumentAt (absent : Shape) : List Node → ℕ → Shape
  | [], _ => absent
  | n :: _, 0 => shapeArgumentValue (shape n) n
  | _ :: rest, k + 1 => shapeArgumentAt absent rest k

/-- The shape of the container of an indexed assignment. -/
def shapeContainer (kind : UInt8) : Node → Shape → Shape
  | .index container element, _ =>
    all [shapeContainer kind container (shape container), shape element,
      opByte .indexEnsure kind]
  | _, self => self

end

/-! ### The compiler writes the shape -/

section

open Shape

attribute [local simp] bind_assoc bind_pure_unit emit_op1 emit_opConst emit_opByte
  emit_assignmentOperation emit_unaryOperation emit_step emit_tupleElements emit_reverse
  emit_register emit_importOp emit_storeForeach emit_failAbove emitConstant emitTruthPredicate
  Shape.emit Shape.all

mutual

/-- `compile_node` writes the shape of its node. -/
theorem compileNode_eq : ∀ n, compileNode n = (shape n).emit
  | .script statements => by
    simp only [compileNode, shape, compileStatements_eq]
  | .block statements => by
    simp only [compileNode, shape, compileStatements_eq]
  | .boolean b => by
    cases b <;> simp [compileNode, shape]
  | .null => by
    simp [compileNode, shape]
  | .number isDouble v => by
    simp [compileNode, shape]
  | .long v => by
    simp [compileNode, shape]
  | .string s => by
    simp [compileNode, shape]
  | .align width value => by
    simp [compileNode, shape, compileNode_eq width, compileNode_eq value]
  | .scalar s => by
    simp [compileNode, shape]
  | .array s => by
    simp [compileNode, shape]
  | .hashtable s => by
    simp [compileNode, shape]
  | .identifier s => by
    simp [compileNode, shape]
  | .binop token negate left right => by
    have hl := compileNode_eq left
    have hr := compileNode_eq right
    obtain ⟨type, text⟩ := token
    cases type <;> cases negate <;> simp [compileNode, shape, hl, hr]
  | .unaryop token operand punned => by
    have ho := compileNode_eq operand
    simp only [compileNode, shape]
    split
    · cases operand.stepName? punned <;> simp [ho]
    · simp [ho]
  | .assignment type left right => by
    have hr := compileNode_eq right
    cases left with
    | index container element =>
      have hc := compileContainer_eq (Node.autovivifyKind container) container
        (compileNode container) (shape container) (compileNode_eq container)
      have he := compileNode_eq element
      by_cases hop : type = .equal <;> simp [compileNode, shape, hc, he, hr, hop]
    | lvalueTuple elements => simp [compileNode, shape, hr]
    | _ =>
      by_cases hop : type = .equal <;> simp [compileNode, shape, Node.assignedName?,
        Node.variableName?, hr, hop]
  | .ifStmt condition thenBranch elseBranch => by
    simp [compileNode, shape, compileNode_eq condition, compileNode_eq thenBranch,
      compileOr_eq (pure ()) skip rfl elseBranch]
  | .whileStmt condition body => by
    simp [compileNode, shape, compileNode_eq condition, compileNode_eq body]
  | .forStmt initializer condition increment body => by
    have hi := compilePopped_eq initializer
    have hs := compilePopped_eq increment
    have hb := compileNode_eq body
    cases condition with
    | none => simp [compileNode, shape, hi, hs, hb]
    | some condition => simp [compileNode, shape, hi, hs, hb, compileNode_eq condition]
  | .foreachStmt index value generator body => by
    cases index <;> simp [compileNode, shape, compileNode_eq generator, compileNode_eq body]
  | .assignLoop value generator body => by
    simp [compileNode, shape, compileNode_eq generator, compileNode_eq body]
  | .call target args => by
    have ht := compileNode_eq target
    have ha := compileReversed_eq args
    have h0 := compileArgumentAt_eq (pure ()) skip rfl args 0
    have h1 := compileArgumentAt_eq _ (opConst .pushConst (.num 1)) (emit_opConst _ _ _).symm args 1
    have h2 := compileArgumentAt_eq _ (op1 .pushNull) (emit_op1 _ _).symm args 2
    by_cases hiff : isIffCall target
    · by_cases hargs : args.isEmpty
      · simp [compileNode, shape, hiff, hargs]
      · by_cases hp : Node.assertConditionIsPredicate (args.head?.map Node.argumentValue) <;>
          simp [compileNode, shape, hiff, hargs, hp, h0, h1, h2]
    · cases hid : target.identifier? <;>
        simp [compileNode, shape, hiff, hid, ht, ha, emitOperands, Operand.emit]
  | .arg name value => by
    have hn := compileOr_eq (pure ()) skip rfl name
    have hv := compileNode_eq value
    cases hp : passedByName? name value with
    | some s => simp [compileNode, shape, hp]
    | none =>
      cases hna : name.bind Node.assignedName? <;> cases hva : value.variableName? <;>
        by_cases hs : name.isSome <;> simp [compileNode, shape, hp, hna, hva, hs, hn, hv]
  | .index container element => by
    simp [compileNode, shape, compileNode_eq container, compileNode_eq element]
  | .objExpr target message args => by
    have ht := compileNode_eq target
    have hm := compileOr_eq (pure ()) skip rfl message
    have ha := compileReversed_eq args
    cases hid : target.identifier? <;> cases hmid : message.bind Node.identifier? <;>
      by_cases hs : message.isSome <;> simp [compileNode, shape, hid, hmid, hs, ht, hm, ha]
  | .envBridge keyword identifier body => by
    simp [compileNode, shape]
  | .tryCatch body value handler => by
    have hb := compileNode_eq body
    have hh := compileOr_eq (emitOp .pushNull) (op1 .pushNull) (emit_op1 _ _).symm handler
    cases value <;> simp [compileNode, shape, hb, hh]
  | .returnStmt value => by
    simp [compileNode, shape, compileOr_eq _ (op1 .pushNull) (emit_op1 _ _).symm value]
  | .throwStmt value => by
    simp [compileNode, shape, compileOr_eq _ (op1 .pushNull) (emit_op1 _ _).symm value]
  | .assertStmt value message => by
    have hv := compileOr_eq _ (op1 .pushNull) (emit_op1 _ _).symm value
    have hm := compileOr_eq _ (opConst .pushConst (.string (ascii "assertion failed")))
      (emit_opConst _ _ _).symm message
    by_cases h : Node.assertConditionIsPredicate value
    · by_cases h' : Node.conditionIsExplicitPredicate value <;>
        simp [compileNode, shape, hv, hm, h, h']
    · simp [compileNode, shape, hm, h]
  | .yieldStmt value => by
    simp [compileNode, shape, compileOr_eq _ (op1 .pushNull) (emit_op1 _ _).symm value]
  | .breakStmt => by
    simp [compileNode, shape]
  | .continueStmt => by
    simp [compileNode, shape]
  | .halt => by
    simp [compileNode, shape]
  | .done => by
    simp [compileNode, shape]
  | .callcc value => by
    simp [compileNode, shape, compileOr_eq (pure ()) skip rfl value]
  | .localStmt value => by
    have hv := compileOr_eq _ (op1 .pushNull) (emit_op1 _ _).symm value
    by_cases h : value.isSome <;> simp [compileNode, shape, hv, h]
  | .thisStmt value => by
    have hv := compileOr_eq _ (op1 .pushNull) (emit_op1 _ _).symm value
    by_cases h : value.isSome <;> simp [compileNode, shape, hv, h]
  | .importStmt target path => by
    simp [compileNode, shape]
  | .backtick s => by
    simp [compileNode, shape]
  | .classLiteral s => by
    simp [compileNode, shape]
  | .address s => by
    simp [compileNode, shape]
  | .lvalueTuple elements => by
    simp [compileNode, shape, compileAll_eq elements]
  | .nop => by
    simp [compileNode, shape]

theorem compileOr_eq : ∀ (e : Emit Unit) (s : Shape), e = s.emit → ∀ n,
    compileOr e n = (shapeOr s n).emit
  | e, s, h, none => by simp only [compileOr, shapeOr, h]
  | e, s, h, some n => by simp only [compileOr, shapeOr, compileNode_eq n]

theorem compileStatements_eq (script : Bool) : ∀ ns,
    compileStatements script ns = (shapeStatements script ns).emit
  | [] => rfl
  | n :: rest => by
    have hn := compileNode_eq n
    have hr := compileStatements_eq script rest
    by_cases h : n.leavesNothing <;> simp [compileStatements, shapeStatements, hn, hr, h]

theorem compileAll_eq : ∀ ns, compileAll ns = (shapeAll ns).emit
  | [] => rfl
  | n :: rest => by
    simp [compileAll, shapeAll, compileNode_eq n, compileAll_eq rest]

theorem compilePopped_eq : ∀ ns, compilePopped ns = (shapePopped ns).emit
  | [] => rfl
  | n :: rest => by
    simp [compilePopped, shapePopped, compileNode_eq n, compilePopped_eq rest]

theorem compileReversed_eq : ∀ ns, compileReversed ns = (shapeReversed ns).emit
  | [] => rfl
  | n :: rest => by
    simp [compileReversed, shapeReversed, compileNode_eq n, compileReversed_eq rest]

theorem compileArgumentValue_eq : ∀ (e : Emit Unit) (s : Shape), e = s.emit → ∀ n,
    compileArgumentValue e n = (shapeArgumentValue s n).emit
  | e, s, h, n => by
    cases n with
    | arg name value =>
      simp only [compileArgumentValue, shapeArgumentValue, compileNode_eq value]
    | _ => simp only [compileArgumentValue, shapeArgumentValue, h]

theorem compileArgumentAt_eq : ∀ (e : Emit Unit) (s : Shape), e = s.emit → ∀ ns k,
    compileArgumentAt e ns k = (shapeArgumentAt s ns k).emit
  | e, s, h, [], _ => by simp only [compileArgumentAt, shapeArgumentAt, h]
  | e, s, h, n :: _, 0 => by
    simp only [compileArgumentAt, shapeArgumentAt]
    exact compileArgumentValue_eq _ _ (compileNode_eq n) n
  | e, s, h, _ :: rest, k + 1 => by
    simp only [compileArgumentAt, shapeArgumentAt]
    exact compileArgumentAt_eq e s h rest k

theorem compileContainer_eq (kind : UInt8) : ∀ (n : Node) (e : Emit Unit) (s : Shape),
    e = s.emit → compileContainer kind n e = (shapeContainer kind n s).emit
  | n, e, s, h => by
    cases n with
    | index container element =>
      simp [compileContainer, shapeContainer, compileNode_eq element,
        compileContainer_eq kind container _ _ (compileNode_eq container)]
    | _ => simp only [compileContainer, shapeContainer, h]

end

end

end Slp
