import Mathlib.Data.Int.Notation
import Slp.Compiler.Ast
import Slp.Compiler.Bytecode

/-!
# The compiler

`compile_node` and what it is made of: the emission of bytes, jumps and constants, the two arrays
of pending `break` and `continue` jumps that all loops of a function share, and one case for each
kind of syntax node.

A `SlpCompiler` is a `Compiler`; its C fields that no code reads (the loop's continue target, exit
jump and scope depth) are left out, and so are scopes: a scope ends without emitting anything, as
the only locals are the argument names.  `Compiler.audit` is ghost state.  It records the
placeholders that were emitted and patched, and for each `break` and `continue` the loop it stands
in; nothing in the compiler reads it.
-/

namespace Slp

/-- A constant of a chunk.  A function has no upvalues (see `resolveLocal_of_mem_enclosing`). -/
inductive Constant where
  | null
  | num (v : ℚ)
  | double (v : ℚ)
  | long (v : ℤ)
  | string (s : Bytes)
  | function (code : List UInt8) (constants : List Constant) (name : Option Bytes)

/-- `constants_equal`.  Strings are interned, and every function is a new object. -/
def Constant.equal : Constant → Constant → Bool
  | .null, .null => true
  | .num a, .num b | .double a, .double b => a = b
  | .long a, .long b => a = b
  | .string a, .string b => a = b
  | _, _ => false

/-- Where the next iteration of a loop starts and where the loop ends. -/
structure LoopSpan where
  next : ℕ
  exit : ℕ
  deriving DecidableEq, Repr

/-- What happened to the jumps of a function. -/
structure Audit where
  /-- Every placeholder emitted. -/
  jumps : List ℕ := []
  /-- Every placeholder patched, once for each patch. -/
  patched : List ℕ := []
  /-- The jumps of the `break` and `continue` statements of the innermost open loop. -/
  openBreaks : List ℕ := []
  openContinues : List ℕ := []
  /-- The jumps of the statements of closed loops, each with its own loop. -/
  breaks : List (ℕ × LoopSpan) := []
  continues : List (ℕ × LoopSpan) := []
  deriving DecidableEq, Repr

/-- The number of slots of `break_jumps` and of `continue_jumps`. -/
def maxPending : ℕ := 256

/-- `break_jumps` and `break_jump_count`, or `continue_jumps` and `continue_jump_count`: the jumps
of statements whose target is not known yet.  All loops of a function write into one array. -/
structure Pending where
  jumps : List ℕ := List.replicate maxPending 0
  count : ℕ := 0
  deriving DecidableEq, Repr

namespace Pending

/-- The jumps that the innermost loop patches at its end. -/
def live (p : Pending) : List ℕ := p.jumps.take p.count

/-- A statement's jump is dropped when the array is full. -/
def record (p : Pending) (j : ℕ) : Pending :=
  if p.count < maxPending then { jumps := p.jumps.set p.count j, count := p.count + 1 } else p

end Pending

/-- `SlpCompiler`. -/
structure Compiler where
  code : List UInt8 := []
  constants : List Constant := []
  locals : List (Option Bytes)
  /-- The locals of the enclosing compilers, innermost first. -/
  enclosing : List (List (Option Bytes)) := []
  loopStart : ℤ := -1
  tryDepth : ℕ := 0
  loopTryDepth : ℕ := 0
  breakJumps : Pending := {}
  continueJumps : Pending := {}
  /-- The message of the first error; `had_error` is that there is one. -/
  error : Option String := none
  replMode : Bool := false
  inlineBody : Bool := false
  audit : Audit := {}

/-- A piece of compilation. -/
abbrev Emit := StateM Compiler

namespace Compiler

/-- `init_compiler`: the locals of a function. -/
def initLocals (nested : Bool) : List (Option Bytes) :=
  none :: if nested then (List.range 10).map (fun i => some (ascii s!"${i}")) ++ [some (ascii "@_")]
    else []

/-- `init_compiler`. -/
def init (enclosing : List (List (Option Bytes))) (replMode inlineBody : Bool) : Compiler where
  locals := initLocals !enclosing.isEmpty
  enclosing := enclosing
  replMode := replMode
  inlineBody := inlineBody

end Compiler

/-! ### Emission -/

/-- `compiler_error`: the first error is kept. -/
def compilerError (message : String) : Emit Unit :=
  modify fun c => { c with error := c.error.or (some message) }

/-- `emit_byte`. -/
def emitByte (b : UInt8) : Emit Unit := modify fun c => { c with code := c.code ++ [b] }

/-- `emit_byte` of an opcode. -/
def emitOp (o : Opcode) : Emit Unit := emitByte o.byte

/-- `emit_short`. -/
def emitShort (v : ℤ) : Emit Unit := do
  emitByte (shortBytes v).1
  emitByte (shortBytes v).2

/-- `emit_jump`: the offset of the placeholder. -/
def emitJump (o : Opcode) : Emit ℕ := do
  emitOp o
  emitByte 0xFF
  emitByte 0xFF
  let c ← get
  modify fun c => { c with audit.jumps := c.audit.jumps ++ [c.code.length - 2] }
  return c.code.length - 2

/-- The write of a jump distance. -/
def writeJump (j : ℕ) (distance : ℤ) : Emit Unit :=
  modify fun c => { c with
    code := patchShort c.code j distance
    audit.patched := c.audit.patched ++ [j] }

/-- `patch_jump`. -/
def patchJump (j : ℕ) : Emit Unit := do
  let distance : ℤ := (← get).code.length - j - 2
  if distance > 65535 then compilerError "Too much code to jump over."
  else writeJump j distance

/-- `emit_loop`. -/
def emitLoop (loopStart : ℤ) : Emit Unit := do
  emitOp .loop
  let offset : ℤ := (← get).code.length - loopStart + 2
  if offset > 32767 then compilerError "Loop body too large."
  else emitShort offset

/-- `slp_chunk_add_constant`. -/
def addConstant (v : Constant) : Emit ℕ := do
  let c ← get
  match c.constants.findIdx? (·.equal v) with
  | some i => return i
  | none =>
    set { c with constants := c.constants ++ [v] }
    return c.constants.length

/-- `make_constant`. -/
def makeConstant (v : Constant) : Emit ℕ := do
  let i ← addConstant v
  if i > 65535 then
    compilerError "Too many constants in one chunk."
    return 0
  else return i

/-- An opcode followed by the index of a constant. -/
def emitWith (o : Opcode) (v : Constant) : Emit Unit := do
  emitOp o
  emitShort (← makeConstant v)

/-- `emit_constant`. -/
def emitConstant (v : Constant) : Emit Unit := emitWith .pushConst v

/-- `emit_return`. -/
def emitReturn : Emit Unit := do
  emitOp .pushNull
  emitOp .return

/-! ### Variables -/

/-- `resolve_local`: the last local with the name. -/
def resolveLocal (locals : List (Option Bytes)) (name : Bytes) : Option ℕ :=
  (List.range locals.length).reverse.find? fun i => locals[i]? = some (some name)

/-- `resolve_upvalue` finds nothing: the enclosing compilers have no local that the compiler of a
nested function does not have itself. -/
theorem resolveLocal_of_mem_enclosing {outer name} (h : ∃ b, outer = Compiler.initLocals b)
    (hr : (resolveLocal outer name).isSome) :
    (resolveLocal (Compiler.initLocals true) name).isSome := by
  simp only [resolveLocal, List.find?_isSome, List.mem_reverse, List.mem_range,
    decide_eq_true_eq] at hr ⊢
  obtain ⟨i, -, hi⟩ := hr
  obtain ⟨b, rfl⟩ := h
  cases b with
  | true => exact ⟨i, (List.getElem?_eq_some_iff.1 hi).1, hi⟩
  | false =>
    rcases i with _ | i
    · cases hi
    · cases hi

/-- The one-byte opcodes of the first eight locals. -/
def loadLocalOps : List Opcode :=
  [.loadLocal0, .loadLocal1, .loadLocal2, .loadLocal3, .loadLocal4, .loadLocal5, .loadLocal6,
    .loadLocal7]

/-- The one-byte opcodes of the first eight locals. -/
def storeLocalOps : List Opcode :=
  [.storeLocal0, .storeLocal1, .storeLocal2, .storeLocal3, .storeLocal4, .storeLocal5,
    .storeLocal6, .storeLocal7]

/-- `named_variable`.  The index of a global name is not checked against the range of a short. -/
def namedVariable (name : Bytes) (assign : Bool) : Emit Unit := do
  match resolveLocal (← get).locals name with
  | some i =>
    match (if assign then storeLocalOps else loadLocalOps)[i]? with
    | some o => emitOp o
    | none =>
      emitOp (if assign then .storeLocal else .loadLocal)
      emitByte (UInt8.ofNat i)
  | none =>
    let i ← addConstant (.string name)
    emitOp (if assign then .storeGlobal else .loadGlobal)
    emitShort i

/-- `reference_variable`. -/
def referenceVariable (name : Bytes) : Emit Unit := do
  match resolveLocal (← get).locals name with
  | some i =>
    emitOp .referenceLocal
    emitByte (UInt8.ofNat i)
  | none =>
    let i ← makeConstant (.string name)
    emitOp .referenceGlobal
    emitShort i

/-! ### Operators -/

/-- The opcode of a binary operator. -/
def binaryOpcode : TokenType → Opcode
  | .plus => .add
  | .minus => .subtract
  | .star => .multiply
  | .slash => .divide
  | .percent => .modulo
  | .exp => .power
  | .dot => .concat
  | .lowerX => .repeat
  | .eq => .equal
  | .ne => .notEqual
  | .less => .less
  | .greater => .greater
  | .le => .lessEqual
  | .ge => .greaterEqual
  | .spaceship => .spaceship
  | .eqi => .match
  | .neqi => .notMatch
  | .ampersand => .bitAnd
  | .pipe => .bitOr
  | .caret => .bitXor
  | .lshift => .lshift
  | .rshift => .rshift
  | _ => .add

/-- `assignment_operation_opcode`. -/
def assignmentOperationOpcode : TokenType → Opcode
  | .plusEqual => .add
  | .minusEqual => .subtract
  | .timesEqual => .multiply
  | .divEqual => .divide
  | .catEqual => .concat
  | .andEqual => .bitAnd
  | .orEqual => .bitOr
  | .xorEqual => .bitXor
  | .lshiftEqual => .lshift
  | .rshiftEqual => .rshift
  | .expEqual => .power
  | _ => .nop

/-- The operation of a compound assignment to a variable or an element; none for another token. -/
def emitAssignmentOperation (op : TokenType) : Emit Unit :=
  match assignmentOperationOpcode op with
  | .nop => pure ()
  | o => emitOp o

/-- The operation of a unary operator other than `++` and `--`. -/
def emitUnaryOperation (op : Token) : Emit Unit :=
  match op.type with
  | .minus => emitOp .negate
  | .bang => emitOp .not
  | .unaryPredicateBridge => emitWith .unaryPredicate (.string op.text)
  | _ => pure ()

/-- `emit_truth_predicate`. -/
def emitTruthPredicate : Emit Unit := emitWith .unaryPredicate (.string (ascii "-istrue"))

/-! ### Loops -/

/-- The entry of a loop: what the enclosing loop had is kept, and the loop starts with no pending
jumps. -/
def enterLoop : Emit Compiler := do
  let outer ← get
  set { outer with
    loopStart := outer.code.length
    loopTryDepth := outer.tryDepth
    breakJumps.count := 0
    continueJumps.count := 0
    audit.openBreaks := []
    audit.openContinues := [] }
  return outer

/-- Patches the pending `break` jumps to the current end of the code. -/
def patchBreaks : Emit Unit := do
  let c ← get
  c.breakJumps.live.forM patchJump

/-- Patches the pending `continue` jumps to the current end of the code. -/
def patchContinues : Emit Unit := do
  let c ← get
  c.continueJumps.live.forM patchJump

/-- `for` writes the distances of its `continue` jumps to the step itself, without a check. -/
def writeContinues (incStart : ℕ) : Emit Unit := do
  let c ← get
  c.continueJumps.live.forM fun j => writeJump j (incStart - j - 2)

/-- Ghost: the loop ends at `exit`, and its statements are those open now. -/
def closeLoop (next exit : ℕ) : Emit Unit :=
  modify fun c => { c with
    audit.breaks := c.audit.breaks ++ c.audit.openBreaks.map (·, ⟨next, exit⟩)
    audit.continues := c.audit.continues ++ c.audit.openContinues.map (·, ⟨next, exit⟩) }

/-- The end of a loop: what the enclosing loop had comes back, but for the slots of the two
arrays. -/
def leaveLoop (outer : Compiler) : Emit Unit :=
  modify fun c => { c with
    loopStart := outer.loopStart
    loopTryDepth := outer.loopTryDepth
    breakJumps.count := outer.breakJumps.count
    continueJumps.count := outer.continueJumps.count
    audit.openBreaks := outer.audit.openBreaks
    audit.openContinues := outer.audit.openContinues }

/-- The end of the code. -/
def here : Emit ℕ := return (← get).code.length

/-- The handlers that a `break` or `continue` leaves. -/
def popHandlers : Emit Unit := do
  let c ← get
  (List.replicate (c.tryDepth - c.loopTryDepth) Opcode.popHandler).forM emitOp

/-- A `break` statement in a loop. -/
def emitBreak : Emit Unit := do
  popHandlers
  let j ← emitJump .jump
  modify fun c => { c with
    breakJumps := c.breakJumps.record j
    audit.openBreaks := c.audit.openBreaks ++ [j] }

/-- A `continue` statement in a loop. -/
def emitContinue : Emit Unit := do
  popHandlers
  let j ← emitJump .jump
  modify fun c => { c with
    continueJumps := c.continueJumps.record j
    audit.openContinues := c.audit.openContinues ++ [j] }

/-- Storing a foreach variable: the global of that name, even where the name is a local. -/
def storeForeachVariable (name : Bytes) : Emit Unit := do
  emitWith .storeGlobal (.string (Node.nameBuf (ascii "$" ++ name)))
  emitOp .pop

/-! ### Syntax nodes -/

/-- One element of an assignment to a tuple of variables; `single` is whether the tuple has just
this one. -/
def emitTupleElement (op : TokenType) (single : Bool) (i : ℕ) (element : Node) : Emit Unit :=
  match element.assignedName? with
  | none => pure ()
  | some name => do
    emitOp .dup
    if op ≠ .equal && single then
      namedVariable name false
      emitOp .tupleCompound
      emitByte (assignmentOperationOpcode op).byte
    else
      emitConstant (.num i)
      emitOp .tupleGet
      if op ≠ .equal then
        namedVariable name false
        emitOp .swap
        emitOp (assignmentOperationOpcode op)
    namedVariable name true
    emitOp .pop

/-- The check of a count that has to fit in a byte. -/
def checkCount (count : ℕ) (message : String) : Emit Unit :=
  if count > 255 then compilerError message else pure ()

/-- `OP_REVERSE` for the arguments of a call, which were evaluated last to first. -/
def emitReverse (count : ℕ) : Emit Unit := do
  if count > 1 then
    emitOp .reverse
    emitByte (UInt8.ofNat count)

/-- The registration of a named bridge. -/
def emitRegister (keyword identifier : Option Bytes) : Emit Unit :=
  match keyword, identifier with
  | some kw, some name => do
    emitOp .bridgeRegister
    emitShort (← makeConstant (.string kw))
    emitShort (← makeConstant (.string name))
  | _, _ => pure ()

/-- `OP_IMPORT`. -/
def emitImport (target path : Option Bytes) : Emit Unit :=
  match target with
  | none => pure ()
  | some target => do
    emitOp .importOp
    emitShort (← makeConstant (.string target))
    match path with
    | some path => emitShort (← makeConstant (.string path))
    | none => emitShort 0

/-- The text of an argument that is passed by name. -/
def passedByName? : Option Node → Node → Option Bytes
  | none, .address s => if s.head? ∈ (ascii "$@%").map some then some s else none
  | _, _ => none

/-- `is_iff_call`. -/
def isIffCall (target : Node) : Bool := target.identifier? = some (ascii "iff")

/-- A fresh compiler that emits a body and the final return. -/
def runBody (enclosing : List (List (Option Bytes))) (replMode inlineBody : Bool)
    (body : Emit Unit) : Compiler :=
  ((body *> emitReturn).run (Compiler.init enclosing replMode inlineBody)).2

/-- The compilation of a closure's body by a compiler of its own, whose error becomes an error of
this one, and the instruction that makes the closure. -/
def emitClosure (keyword : Option Bytes) (body : Emit Unit) : Emit Unit := do
  let c ← get
  let sub := runBody (c.locals :: c.enclosing) c.replMode (keyword = some (ascii "inline")) body
  match sub.error with
  | some message => compilerError message
  | none => pure ()
  emitWith .closure (.function sub.code sub.constants keyword)

mutual

/-- `compile_node`. -/
def compileNode : Node → Emit Unit
  | .script statements => compileStatements true statements
  | .block statements => compileStatements false statements
  | .boolean b => emitOp (if b then .pushTrue else .pushFalse)
  | .null => emitOp .pushNull
  | .number isDouble v => emitConstant (if isDouble then .double v else .num v)
  | .long v => emitConstant (.long v)
  | .string s => emitConstant (.string s)
  | .align width value => do
    compileNode width
    compileNode value
    emitOp .align
  | .scalar s => namedVariable (Node.nameBuf (ascii "$" ++ s)) false
  | .array s => namedVariable (Node.nameBuf (if s = ascii "@" then s else ascii "@" ++ s)) false
  | .hashtable s =>
    namedVariable (Node.nameBuf (if s = ascii "%" then s else ascii "%" ++ s)) false
  | .identifier _ => do
    compilerError "Unknown expression"
    emitOp .pushNull
  | .binop op negate left right =>
    match op.type with
    | .land => do
      compileNode left
      let endJump ← emitJump .and
      compileNode right
      patchJump endJump
    | .lor => do
      compileNode left
      let endJump ← emitJump .or
      compileNode right
      patchJump endJump
    | .binaryPredicateBridge => do
      compileNode left
      compileNode right
      emitWith (if negate then .negatedBinaryPredicate else .binaryPredicate) (.string op.text)
    | _ => do
      compileNode right
      compileNode left
      emitOp .swap
      emitOp (binaryOpcode op.type)
  | .unaryop op operand punned => do
    if op.type = .inc ∨ op.type = .dec then
      match operand.stepName? punned with
      | some name =>
        namedVariable name false
        emitOp (if op.type = .inc then .increment else .decrement)
        namedVariable name true
      | none =>
        compileNode operand
        emitOp (if op.type = .inc then .increment else .decrement)
    else
      compileNode operand
      emitUnaryOperation op
  | .assignment op (.index container element) right => do
    compileContainer (Node.autovivifyKind container) container (compileNode container)
    compileNode element
    if op ≠ .equal then
      emitOp .dup2
      emitOp .indexGet
    compileNode right
    emitAssignmentOperation op
    emitOp .indexSet
  | .assignment op (.lvalueTuple elements) right => do
    compileNode right
    elements.zipIdx.forM fun (element, i) => emitTupleElement op (elements.length = 1) i element
  | .assignment op left right =>
    match left.assignedName? with
    | none => pure ()
    | some name => do
      if op ≠ .equal then namedVariable name false
      compileNode right
      emitAssignmentOperation op
      namedVariable name true
  | .ifStmt condition thenBranch elseBranch => do
    compileNode condition
    let thenJump ← emitJump .jumpIfFalse
    emitOp .pop
    compileNode thenBranch
    let elseJump ← emitJump .jump
    patchJump thenJump
    emitOp .pop
    compileOr (pure ()) elseBranch
    patchJump elseJump
  | .whileStmt condition body => do
    let outer ← enterLoop
    compileNode condition
    let exitJump ← emitJump .jumpIfFalse
    emitOp .pop
    compileNode body
    emitLoop (← get).loopStart
    patchJump exitJump
    emitOp .pop
    patchBreaks
    patchContinues
    closeLoop outer.code.length (← here)
    leaveLoop outer
  | .forStmt initializer condition increment body => do
    compilePopped initializer
    let outer ← enterLoop
    match condition with
    | some condition =>
      compileNode condition
      let exitJump ← emitJump .jumpIfFalse
      emitOp .pop
      compileNode body
      let incStart ← here
      compilePopped increment
      emitLoop (← get).loopStart
      patchJump exitJump
      emitOp .pop
      writeContinues incStart
      patchBreaks
      closeLoop incStart (← here)
    | none =>
      compileNode body
      let incStart ← here
      compilePopped increment
      emitLoop (← get).loopStart
      writeContinues incStart
      patchBreaks
      closeLoop incStart (← here)
    leaveLoop outer
  | .foreachStmt index value generator body => do
    compileNode generator
    emitConstant (.num 0)
    let outer ← enterLoop
    let exitJump ← emitJump (if index.isSome then .foreachNext else .foreachNextValue)
    storeForeachVariable value
    match index with
    | some index => storeForeachVariable index
    | none => emitOp .pop
    compileNode body
    patchContinues
    emitLoop (← get).loopStart
    patchJump exitJump
    patchBreaks
    closeLoop outer.code.length (← here)
    emitOp .pop
    emitOp .pop
    leaveLoop outer
  | .assignLoop value generator body => do
    let outer ← enterLoop
    compileNode generator
    namedVariable (Node.nameBuf (ascii "$" ++ value)) true
    let exitJump ← emitJump .jumpIfNull
    emitOp .pop
    compileNode body
    emitLoop (← get).loopStart
    patchJump exitJump
    emitOp .pop
    patchBreaks
    patchContinues
    closeLoop outer.code.length (← here)
    leaveLoop outer
  | .call target args =>
    if isIffCall target then
      if args.isEmpty then emitOp .pushNull
      else do
        -- `compile_iff_call`: the branches have no value of their own when an argument is missing
        if Node.assertConditionIsPredicate (args.head?.map Node.argumentValue) then
          compileArgumentAt (pure ()) args 0
        else emitOp .pushFalse
        let falseJump ← emitJump .jumpIfFalse
        emitOp .pop
        compileArgumentAt (emitConstant (.num 1)) args 1
        let endJump ← emitJump .jump
        patchJump falseJump
        emitOp .pop
        compileArgumentAt (emitOp .pushNull) args 2
        patchJump endJump
    else do
      match target.identifier? with
      | some name => namedVariable name false
      | none => compileNode target
      compileReversed args
      checkCount args.length "Too many arguments in call."
      emitReverse args.length
      match target.identifier? with
      | some name =>
        emitOp .callNamed
        emitByte (UInt8.ofNat args.length)
        emitShort (← makeConstant (.string name))
      | none =>
        emitOp .call
        emitByte (UInt8.ofNat args.length)
  | .arg name value => do
    match passedByName? name value with
    | some s =>
      emitConstant (.string s)
      referenceVariable s
      emitOp .buildKeyValue
    | none =>
      match name.bind Node.assignedName? with
      | some s => emitConstant (.string s)
      | none => compileOr (pure ()) name
      match value.variableName? with
      | some s => referenceVariable s
      | none => compileNode value
      if name.isSome then emitOp .buildKeyValue
  | .index container element => do
    compileNode container
    compileNode element
    emitOp .indexGet
  | .objExpr target message args => do
    match target.identifier? with
    | some name => namedVariable name false
    | none => compileNode target
    checkCount args.length "Too many arguments in object expression."
    match message.bind Node.identifier? with
    | some s => emitConstant (.string s)
    | none => compileOr (pure ()) message
    compileReversed args
    emitReverse args.length
    emitOp (if message.isSome then .objExpr else .call)
    emitByte (UInt8.ofNat args.length)
  | .envBridge keyword identifier body => do
    emitClosure keyword (compileNode body)
    emitRegister keyword identifier
  | .tryCatch body value handler => do
    let catchOffset ← emitJump .pushHandler
    modify fun c => { c with tryDepth := c.tryDepth + 1 }
    compileNode body
    modify fun c => { c with tryDepth := c.tryDepth - 1 }
    emitOp .popHandler
    let exitJump ← emitJump .jump
    patchJump catchOffset
    match value with
    | some name => emitWith .storeCatch (.string (Node.nameBuf (ascii "$" ++ name)))
    | none => pure ()
    compileOr (emitOp .pushNull) handler
    patchJump exitJump
  | .returnStmt value => do
    compileOr (emitOp .pushNull) value
    emitOp (if (← get).inlineBody then .inlineReturn else .return)
  | .throwStmt value => do
    compileOr (emitOp .pushNull) value
    emitOp .throw
  | .assertStmt value message => do
    if Node.assertConditionIsPredicate value then
      compileOr (emitOp .pushNull) value
      unless Node.conditionIsExplicitPredicate value do emitTruthPredicate
    else emitOp .pushFalse
    let successJump ← emitJump .jumpIfTrue
    emitOp .pop
    compileOr (emitConstant (.string (ascii "assertion failed"))) message
    emitOp .assert
    let endJump ← emitJump .jump
    patchJump successJump
    emitOp .pop
    patchJump endJump
  | .yieldStmt value => do
    compileOr (emitOp .pushNull) value
    emitOp .yield
  | .breakStmt => do
    if 0 ≤ (← get).loopStart then emitBreak
  | .continueStmt => do
    if 0 ≤ (← get).loopStart then emitContinue
  | .halt => emitOp .halt
  | .done => emitOp .done
  | .callcc value => do
    compileOr (pure ()) value
    emitOp .callcc
    emitByte (if value.isSome then 1 else 0)
  | .localStmt value => do
    compileOr (emitOp .pushNull) value
    if value.isSome then emitOp .local
  | .thisStmt value => do
    compileOr (emitOp .pushNull) value
    if value.isSome then emitOp .this
  | .importStmt target path => emitImport target path
  | .backtick s => emitWith .backtick (.string s)
  | .classLiteral s => emitWith .classLiteral (.string s)
  | .address s => emitWith .address (.string s)
  | .lvalueTuple elements => do
    compileAll elements
    checkCount elements.length "Too many elements in tuple assignment."
    emitOp .unpackTuple
    emitByte (UInt8.ofNat elements.length)
  | .nop => emitOp .nop

/-- An optional child, with what is emitted for one that is missing. -/
def compileOr (absent : Emit Unit) : Option Node → Emit Unit
  | none => absent
  | some n => compileNode n

/-- The statements of a script or a block.  The last statement of a script read at the prompt
returns its value. -/
def compileStatements (script : Bool) : List Node → Emit Unit
  | [] => pure ()
  | n :: rest => do
    compileNode n
    unless n.leavesNothing do
      emitOp (if (← get).replMode && script && rest.isEmpty then .return else .pop)
    compileStatements script rest

/-- Nodes in their order. -/
def compileAll : List Node → Emit Unit
  | [] => pure ()
  | n :: rest => do
    compileNode n
    compileAll rest

/-- The initializers or increments of a `for`. -/
def compilePopped : List Node → Emit Unit
  | [] => pure ()
  | n :: rest => do
    compileNode n
    emitOp .pop
    compilePopped rest

/-- Arguments, last to first. -/
def compileReversed : List Node → Emit Unit
  | [] => pure ()
  | n :: rest => do
    compileReversed rest
    compileNode n

/-- `call_argument_value` of one argument of `iff`; `self` compiles the argument itself. -/
def compileArgumentValue (self : Emit Unit) : Node → Emit Unit
  | .arg _ value => compileNode value
  | _ => self

/-- The value of the argument of `iff` with this number. -/
def compileArgumentAt (absent : Emit Unit) : List Node → ℕ → Emit Unit
  | [], _ => absent
  | n :: _, 0 => compileArgumentValue (compileNode n) n
  | _ :: rest, k + 1 => compileArgumentAt absent rest k

/-- `compile_assignment_container`; `self` compiles the container as an expression. -/
def compileContainer (kind : UInt8) : Node → Emit Unit → Emit Unit
  | .index container element, _ => do
    compileContainer kind container (compileNode container)
    compileNode element
    emitOp .indexEnsure
    emitByte kind
  | _, self => self

end

/-- The compiler of a script or a closure after its body and the final return. -/
def compileBody (enclosing : List (List (Option Bytes))) (replMode inlineBody : Bool)
    (body : Node) : Compiler :=
  runBody enclosing replMode inlineBody (compileNode body)

/-- `slp_compile_ex`: the code and the constants of the script, or the error. -/
def compileEx (replMode : Bool) (ast : Node) : Except String Constant :=
  let c := compileBody [] replMode false ast
  match c.error with
  | some message => .error message
  | none => .ok (.function c.code c.constants none)

end Slp
