import Slp.Compiler.Activation

/-!
# The meaning of compiled code

`Shape.meaning` is the structured command that a shape stands for, with loops, handlers and tests as
operations on commands and the behaviour of the instructions as given.  No jump, address or
placeholder is in it.  `Shape.Proper` says which opcodes a shape has where it jumps, and all shapes
of syntax nodes are proper (`proper_shape`).
-/

namespace Slp

open Flow (Command Result)

open Activation (Argument Behaviour Effect Instruction)

namespace Activation

variable {σ μ : Type*}

/-- The result of an instruction that is no jump. -/
def Effect.result : Effect σ → Result σ
  | .next s => .done s
  | .threw s => .threw s
  | .left s => .left s

/-- An instruction as a command.  The end of a `try` does nothing but to drop its handler. -/
def Behaviour.perform (B : Behaviour σ μ) (i : Instruction) : Command σ :=
  if i.op = .popHandler then .skip else fun s => Effect.result '' B.effect i s

/-- `OP_POP`. -/
def Behaviour.pop (B : Behaviour σ μ) : Command σ := B.perform ⟨.pop, none, []⟩

end Activation

/-- What an operand of the compiler stands for. -/
def Mention.argument : Mention → Argument
  | .slot i => .slot (i % 256)
  | .constant _ v _ => .constant (some v)
  | .closure keyword sub => .constant (some (sub.function keyword))
  | .raw _ _ => .constant none

/-- What the compiler knows of the function it compiles. -/
structure Setting extends Surroundings where
  inlineBody : Bool

/-- The setting of a compiler. -/
def Compiler.setting (c : Compiler) : Setting :=
  { c.surroundings with inlineBody := c.inlineBody }

namespace Shape

/-- The opcode of a variable. -/
def variableOp (x : Setting) (name : Bytes) (assign : Bool) : Opcode :=
  match resolveLocal x.locals name with
  | some i =>
    ((if assign then storeLocalOps else loadLocalOps)[i]?).getD
      (if assign then .storeLocal else .loadLocal)
  | none => if assign then .storeGlobal else .loadGlobal

/-- The opcode of a piece that is one instruction. -/
def leafOp (x : Setting) : Shape → Option Opcode
  | .op o _ _ => some o
  | .var name assign => some (variableOp x name assign)
  | .reference name =>
    some (if (resolveLocal x.locals name).isSome then .referenceLocal else .referenceGlobal)
  | .ret => some (if x.inlineBody then .inlineReturn else .return)
  | .endStatement script last => some (if x.replMode && script && last then .return else .pop)
  | .closure _ _ => some .closure
  | _ => none

/-- The one-byte operand of an instruction. -/
def count? : Shape → Option UInt8
  | .op _ (.byte b :: _) _ => some b
  | _ => none

/-- The instruction that a piece is. -/
def instruction (x : Setting) (s : Shape) : Option Instruction :=
  (s.leafOp x).map fun o =>
    { op := o
      count := if o.hasCount then s.count? else none
      arguments := if o = .importOp then []
        else (s.mentions x.toSurroundings).map Mention.argument }

variable {σ μ : Type*}

/-- The command that a shape stands for, in a loop or outside of one. -/
def meaning (B : Behaviour σ μ) (x : Setting) : Bool → Shape → Command σ
  | l, .seq a b => .seq (a.meaning B x l) (b.meaning B x l)
  | l, .guard o _ a => .choose (B.test o) .skip (a.meaning B x l)
  | l, .branch o _ a b =>
    if o = .pushHandler then .attempt B.mark B.caught (a.meaning B x l) (b.meaning B x l)
    else .choose (B.test o) (b.meaning B x l) (a.meaning B x l)
  | l, .inTry a => a.meaning B x l
  | l, .brk => if l then .brk else .skip
  | l, .cont => if l then .cont else .skip
  | _, .whileLoop o _ head body =>
    .loop (.seq (head.meaning B x true)
      (.choose (B.test o) (.seq B.pop .brk) (.seq B.pop (body.meaning B x true))))
  | _, .forLoop head body step =>
    .loop (.seq (.through (.seq (head.meaning B x true)
      (.choose (B.test .jumpIfFalse) (.seq B.pop .brk) (.seq B.pop (body.meaning B x true)))))
      (step.meaning B x true))
  | _, .foreverLoop body step =>
    .loop (.seq (.through (body.meaning B x true)) (step.meaning B x true))
  | _, .foreachLoop o _ body =>
    .seq (.loop (.choose (B.test o) .brk (body.meaning B x true))) (.seq B.pop B.pop)
  | _, s => match s.instruction x with
    | some i => B.perform i
    | none => .skip

/-- How many handlers a piece has at most at one time. -/
def tries : Shape → ℕ
  | .inTry a => a.tries + 1
  | .seq a b | .branch _ _ a b | .whileLoop _ _ a b | .foreverLoop a b => max a.tries b.tries
  | .guard _ _ a | .foreachLoop _ _ a => a.tries
  | .forLoop a b s => max a.tries (max b.tries s.tries)
  | _ => 0

/-- A shape that jumps by tests, and whose handlers are entered and left in pairs. -/
inductive Proper : Shape → Prop where
  | skip : Proper .skip
  | fail (message : String) : Proper (.fail message)
  | op {o : Opcode} {xs : List Operand} (h) (ho : o.isControl = false) : Proper (.op o xs h)
  | var (name : Bytes) (assign : Bool) : Proper (.var name assign)
  | reference (name : Bytes) : Proper (.reference name)
  | ret : Proper .ret
  | endStatement (script last : Bool) : Proper (.endStatement script last)
  | closure (keyword : Option Bytes) (body : Emit Unit) : Proper (.closure keyword body)
  | seq {a b : Shape} (ha : a.Proper) (hb : b.Proper) : Proper (.seq a b)
  | guard {o : Opcode} {a : Shape} (h) (ho : o.isTest) (ha : a.Proper) : Proper (.guard o h a)
  | branch {o : Opcode} {a b : Shape} (h) (ho : o.isTest) (ha : a.Proper) (hb : b.Proper) :
      Proper (.branch o h a b)
  | attempt {a b : Shape} (h h') (ha : a.Proper) (hb : b.Proper) :
      Proper (.branch .pushHandler h (.seq (.inTry a) (.op .popHandler [] h')) b)
  | brk : Proper .brk
  | cont : Proper .cont
  | whileLoop {o : Opcode} {a b : Shape} (h) (ho : o.isTest) (ha : a.Proper) (hb : b.Proper) :
      Proper (.whileLoop o h a b)
  | forLoop {a b s : Shape} (ha : a.Proper) (hb : b.Proper) (hs : s.Proper) :
      Proper (.forLoop a b s)
  | foreverLoop {b s : Shape} (hb : b.Proper) (hs : s.Proper) : Proper (.foreverLoop b s)
  | foreachLoop {o : Opcode} {a : Shape} (h) (ho : o.isTest) (ha : a.Proper) :
      Proper (.foreachLoop o h a)

theorem isControl_variableOp (x : Setting) (name : Bytes) (assign : Bool) :
    (variableOp x name assign).isControl = false := by
  have hall : ∀ o ∈ loadLocalOps ++ storeLocalOps, o.isControl = false := by decide
  unfold variableOp
  split
  · next i _ =>
    cases hget : (if assign then storeLocalOps else loadLocalOps)[i]? with
    | some o =>
      refine hall o (List.mem_append.2 ?_)
      cases assign
      · exact .inl (List.mem_of_getElem? hget)
      · exact .inr (List.mem_of_getElem? hget)
    | none => cases assign <;> rfl
  · cases assign <;> rfl

end Shape

/-! ### Leaves -/

theorem isControl_binaryOpcode (op : TokenType) : (binaryOpcode op).isControl = false := by
  cases op <;> rfl

theorem isControl_assignmentOperationOpcode (op : TokenType) :
    (assignmentOperationOpcode op).isControl = false := by
  cases op <;> rfl

namespace Shape

/-! ### Constructors -/

section

variable {o : Opcode} {a b s : Shape}

theorem proper_op {xs : List Operand} {h} : (Shape.op o xs h).Proper ↔ o.isControl = false :=
  ⟨fun | .op _ ho => ho, .op h⟩

theorem proper_seq : (Shape.seq a b).Proper ↔ a.Proper ∧ b.Proper :=
  ⟨fun | .seq ha hb => ⟨ha, hb⟩, fun h => .seq h.1 h.2⟩

theorem proper_op1 (h : o.length = 1) : (op1 o h).Proper ↔ o.isControl = false := proper_op

theorem proper_opByte (b : UInt8) (h : o.length = 2) :
    (opByte o b h).Proper ↔ o.isControl = false := proper_op

theorem proper_opConst (v : Constant) (h : o.length = 3) :
    (opConst o v h).Proper ↔ o.isControl = false := proper_op

theorem proper_forLoop : (Shape.forLoop a b s).Proper ↔ a.Proper ∧ b.Proper ∧ s.Proper :=
  ⟨fun | .forLoop ha hb hs => ⟨ha, hb, hs⟩, fun h => .forLoop h.1 h.2.1 h.2.2⟩

theorem proper_foreverLoop : (Shape.foreverLoop b s).Proper ↔ b.Proper ∧ s.Proper :=
  ⟨fun | .foreverLoop hb hs => ⟨hb, hs⟩, fun h => .foreverLoop h.1 h.2⟩

end

end Shape

section

open Shape

attribute [local simp] Shape.all proper_op1 proper_opByte proper_opConst proper_seq proper_forLoop
  proper_foreverLoop isControl_binaryOpcode isControl_assignmentOperationOpcode Proper.skip
  Proper.fail Proper.var Proper.reference Proper.ret
  Proper.endStatement Proper.closure Proper.brk Proper.cont

namespace Shape

theorem proper_assignmentOperation (op : TokenType) : (assignmentOperation op).Proper := by
  unfold assignmentOperation
  split <;> simp +decide

theorem proper_unaryOperation (op : Token) : (unaryOperation op).Proper := by
  unfold unaryOperation
  split <;> simp +decide

theorem proper_step (op : TokenType) : (step op).Proper := by
  unfold step
  split <;> simp +decide

theorem proper_tupleElement (op : TokenType) (single : Bool) (i : ℕ) (element : Node) :
    (tupleElement op single i element).Proper := by
  unfold tupleElement
  cases element.assignedName? with
  | none => exact .skip
  | some name =>
    dsimp only
    split
    · simp +decide
    · split <;> simp +decide

theorem proper_tupleElements (op : TokenType) (single : Bool) :
    ∀ es, (tupleElements op single es).Proper
  | [] => .skip
  | (element, i) :: rest =>
    .seq (proper_tupleElement op single i element) (proper_tupleElements op single rest)

theorem proper_reverse (count : ℕ) : (reverse count).Proper := by
  unfold reverse
  split <;> simp +decide

theorem proper_register (keyword identifier : Option Bytes) :
    (Shape.register keyword identifier).Proper := by
  cases keyword <;> cases identifier <;>
    first | exact .skip | exact .op _ rfl

theorem proper_importOp (target path : Option Bytes) : (importOp target path).Proper := by
  cases target <;> cases path <;>
    first | exact .skip | exact .op _ rfl

theorem proper_storeForeach (name : Bytes) : (storeForeach name).Proper := by
  simp +decide [storeForeach]

theorem proper_failAbove (count : ℕ) (message : String) : (failAbove count message).Proper := by
  unfold failAbove
  split <;> simp +decide

end Shape

theorem proper_pop : (op1 .pop).Proper := .op _ rfl

/-! ### Syntax nodes -/

attribute [local simp] proper_assignmentOperation proper_unaryOperation proper_step proper_tupleElements
  proper_reverse proper_register proper_importOp proper_storeForeach proper_failAbove

theorem proper_binop {token : Token} {negate : Bool} {left right : Node}
    (hl : (shape left).Proper) (hr : (shape right).Proper) :
    (shape (.binop token negate left right)).Proper := by
  obtain ⟨type, text⟩ := token
  have hand : (Shape.guard .and rfl (shape right)).Proper := .guard rfl rfl hr
  have hor : (Shape.guard .or rfl (shape right)).Proper := .guard rfl rfl hr
  cases type <;> cases negate <;> simp +decide [shape, hl, hr, hand, hor]

theorem proper_call {target : Node} {args : List Node} (ht : (shape target).Proper)
    (ha : (shapeReversed args).Proper)
    (hat : ∀ absent : Shape, absent.Proper → ∀ k, (shapeArgumentAt absent args k).Proper) :
    (shape (.call target args)).Proper := by
  have h0 := hat skip .skip 0
  have h1 := hat (opConst .pushConst (.num 1)) (by simp +decide) 1
  have h2 := hat (op1 .pushNull) (by simp +decide) 2
  have hbranch := Proper.branch (o := .jumpIfFalse) rfl rfl (.seq proper_pop h1) (.seq proper_pop h2)
  have hcall (count : UInt8) (name : Bytes) :
      (Shape.op .callNamed [.byte count, .const (.string name)] rfl).Proper := .op rfl rfl
  by_cases hiff : isIffCall target
  · by_cases hargs : args.isEmpty
    · simp +decide [shape, hiff, hargs]
    · by_cases hp : Node.assertConditionIsPredicate (args.head?.map Node.argumentValue) <;>
        simp +decide [shape, hiff, hargs, hp, h0, hbranch]
  · cases hid : target.identifier? <;> simp +decide [shape, hiff, hid, ht, ha, hcall]

theorem proper_arg {name : Option Node} {value : Node} (hn : (shapeOr skip name).Proper)
    (hv : (shape value).Proper) : (shape (.arg name value)).Proper := by
  cases hp : passedByName? name value with
  | some s => simp +decide [shape, hp]
  | none =>
    cases hna : name.bind Node.assignedName? <;> cases hva : value.variableName? <;>
      by_cases hs : name.isSome <;> simp +decide [shape, hp, hna, hva, hs, hn, hv]

theorem proper_objExpr {target : Node} {message : Option Node} {args : List Node}
    (ht : (shape target).Proper) (hm : (shapeOr skip message).Proper)
    (ha : (shapeReversed args).Proper) : (shape (.objExpr target message args)).Proper := by
  cases hid : target.identifier? <;> cases hmid : message.bind Node.identifier? <;>
    by_cases hs : message.isSome <;> simp +decide [shape, hid, hmid, hs, ht, hm, ha]

mutual

theorem proper_shape : ∀ n, (shape n).Proper
  | .script statements => by
    simp only [shape, proper_shapeStatements]
  | .block statements => by
    simp only [shape, proper_shapeStatements]
  | .boolean b => by
    cases b <;> simp +decide [shape]
  | .null => by
    simp +decide [shape]
  | .number isDouble v => by
    cases isDouble <;> simp +decide [shape]
  | .long v => by
    simp +decide [shape]
  | .string s => by
    simp +decide [shape]
  | .align width value => by
    simp +decide [shape, proper_shape width, proper_shape value]
  | .scalar s => by
    simp +decide [shape]
  | .array s => by
    simp +decide [shape]
  | .hashtable s => by
    simp +decide [shape]
  | .identifier s => by
    simp +decide [shape]
  | .binop _ _ left right => proper_binop (proper_shape left) (proper_shape right)
  | .unaryop token operand punned => by
    have ho := proper_shape operand
    simp only [shape]
    split
    · cases operand.stepName? punned <;> simp +decide [ho]
    · simp +decide [ho]
  | .assignment type left right => by
    have hr := proper_shape right
    cases left with
    | index container element =>
      have hc := proper_shapeContainer (Node.autovivifyKind container) container
        (shape container) (proper_shape container)
      have he := proper_shape element
      by_cases hop : type = .equal <;> simp +decide [shape, hc, he, hr, hop]
    | lvalueTuple elements => simp +decide [shape, hr]
    | _ =>
      by_cases hop : type = .equal <;>
        simp +decide [shape, Node.assignedName?, Node.variableName?, hr, hop]
  | .ifStmt condition thenBranch elseBranch => by
    simp only [shape]
    exact .seq (proper_shape condition) (.branch rfl rfl (.seq proper_pop (proper_shape thenBranch))
      (.seq proper_pop (proper_shapeOr skip .skip elseBranch)))
  | .whileStmt condition body => by
    simp only [shape]
    exact .whileLoop rfl rfl (proper_shape condition) (proper_shape body)
  | .forStmt initializer condition increment body => by
    have hi := proper_shapePopped initializer
    have hs := proper_shapePopped increment
    have hb := proper_shape body
    cases condition with
    | none => simp +decide [shape, hi, hs, hb]
    | some condition => simp +decide [shape, hi, hs, hb, proper_shape condition]
  | .foreachStmt index value generator body => by
    have hb := proper_shape body
    have hnext (index : Bytes) : (Shape.foreachLoop .foreachNext rfl
        (Shape.all [storeForeach value, storeForeach index, shape body])).Proper :=
      .foreachLoop rfl rfl (by simp [hb])
    have hvalue : (Shape.foreachLoop .foreachNextValue rfl
        (Shape.all [storeForeach value, op1 .pop, shape body])).Proper :=
      .foreachLoop rfl rfl (by simp +decide [hb])
    simp only [shape]
    refine .seq (proper_shape generator) (.seq ((proper_opConst _ _).2 rfl) (.seq ?_ .skip))
    cases index with
    | some index => exact hnext index
    | none => exact hvalue
  | .assignLoop value generator body => by
    simp only [shape]
    exact .whileLoop rfl rfl (.seq (proper_shape generator) (.var _ _)) (proper_shape body)
  | .call target args =>
    proper_call (proper_shape target) (proper_shapeReversed args) fun absent h =>
      proper_shapeArgumentAt absent h args
  | .arg name value => proper_arg (proper_shapeOr skip .skip name) (proper_shape value)
  | .index container element => by
    simp +decide [shape, proper_shape container, proper_shape element]
  | .objExpr target message args =>
    proper_objExpr (proper_shape target) (proper_shapeOr skip .skip message)
      (proper_shapeReversed args)
  | .envBridge keyword identifier body => by
    exact .seq (.closure _ _) (proper_register keyword identifier)
  | .tryCatch body value handler => by
    have hb := proper_shape body
    have hh := proper_shapeOr (op1 .pushNull) (by simp +decide) handler
    simp only [shape]
    refine .attempt rfl _ hb (.seq ?_ hh)
    cases value with
    | some name => exact (proper_opConst _ _).2 rfl
    | none => exact .skip
  | .returnStmt value => by
    simp +decide [shape, proper_shapeOr (op1 .pushNull) (by simp +decide) value]
  | .throwStmt value => by
    simp +decide [shape, proper_shapeOr (op1 .pushNull) (by simp +decide) value]
  | .assertStmt value message => by
    have hv := proper_shapeOr (op1 .pushNull) (by simp +decide) value
    have hm := proper_shapeOr (opConst .pushConst (.string (ascii "assertion failed"))) (by simp +decide)
      message
    simp only [shape]
    refine .seq ?_ (.branch rfl rfl (by simp +decide [hm]) proper_pop)
    by_cases h : Node.assertConditionIsPredicate value
    · by_cases h' : Node.conditionIsExplicitPredicate value <;> simp +decide [hv, h, h']
    · simp +decide [h]
  | .yieldStmt value => by
    simp +decide [shape, proper_shapeOr (op1 .pushNull) (by simp +decide) value]
  | .breakStmt => by
    simp +decide [shape]
  | .continueStmt => by
    simp +decide [shape]
  | .halt => by
    simp +decide [shape]
  | .done => by
    simp +decide [shape]
  | .callcc value => by
    simp +decide [shape, proper_shapeOr skip .skip value]
  | .localStmt value => by
    have hv := proper_shapeOr (op1 .pushNull) (by simp +decide) value
    by_cases h : value.isSome <;> simp +decide [shape, hv, h]
  | .thisStmt value => by
    have hv := proper_shapeOr (op1 .pushNull) (by simp +decide) value
    by_cases h : value.isSome <;> simp +decide [shape, hv, h]
  | .importStmt target path => by
    simp +decide [shape]
  | .backtick s => by
    simp +decide [shape]
  | .classLiteral s => by
    simp +decide [shape]
  | .address s => by
    simp +decide [shape]
  | .lvalueTuple elements => by
    simp +decide [shape, proper_shapeAll elements]
  | .nop => by
    simp +decide [shape]

theorem proper_shapeOr (absent : Shape) (h : absent.Proper) : ∀ n, (shapeOr absent n).Proper
  | none => by simpa only [shapeOr] using h
  | some n => by simpa only [shapeOr] using proper_shape n

theorem proper_shapeStatements (script : Bool) : ∀ ns, (shapeStatements script ns).Proper
  | [] => by simp +decide [shapeStatements]
  | n :: rest => by
    have hn := proper_shape n
    have hr := proper_shapeStatements script rest
    by_cases h : n.leavesNothing <;> simp +decide [shapeStatements, hn, hr, h]

theorem proper_shapeAll : ∀ ns, (shapeAll ns).Proper
  | [] => by simp +decide [shapeAll]
  | n :: rest => by simp +decide [shapeAll, proper_shape n, proper_shapeAll rest]

theorem proper_shapePopped : ∀ ns, (shapePopped ns).Proper
  | [] => by simp +decide [shapePopped]
  | n :: rest => by simp +decide [shapePopped, proper_shape n, proper_shapePopped rest]

theorem proper_shapeReversed : ∀ ns, (shapeReversed ns).Proper
  | [] => by simp +decide [shapeReversed]
  | n :: rest => by simp +decide [shapeReversed, proper_shape n, proper_shapeReversed rest]

theorem proper_shapeArgumentValue : ∀ (self : Shape) (n : Node), self.Proper →
    (shapeArgumentValue self n).Proper
  | self, n, h => by
    cases n with
    | arg name value => simpa only [shapeArgumentValue] using proper_shape value
    | _ => simpa only [shapeArgumentValue] using h

theorem proper_shapeArgumentAt (absent : Shape) (h : absent.Proper) :
    ∀ ns k, (shapeArgumentAt absent ns k).Proper
  | [], _ => by simpa only [shapeArgumentAt] using h
  | n :: _, 0 => by
    simp only [shapeArgumentAt]
    exact proper_shapeArgumentValue _ n (proper_shape n)
  | _ :: rest, k + 1 => by
    simp only [shapeArgumentAt]
    exact proper_shapeArgumentAt absent h rest k

theorem proper_shapeContainer (kind : UInt8) : ∀ (n : Node) (self : Shape), self.Proper →
    (shapeContainer kind n self).Proper
  | n, self, h => by
    cases n with
    | index container element =>
      simp +decide [shapeContainer, proper_shape element,
        proper_shapeContainer kind container _ (proper_shape container)]
    | _ => simpa only [shapeContainer] using h

end

end

end Slp
