import Slp.Parse.Tree

/-!
# The parser

The recursive-descent parser: its state, the rules table, and every parse function.

The functions call one another in cycles.  Each is written over `Calls`, the functions and the
loops that close the cycles; `calls n` ties the knot, to `n` levels, and `parse` gives it enough of
them for the source it is run on.  A loop takes one level for each time round.

A run also keeps a `Trail`, which no function reads: what was scanned, how deep the calls went, and
the steps that the properties of the parser are about.
-/

namespace Slp.Parse

/-! ### State -/

/-- What a run leaves behind beside the state of the parser. -/
structure Trail where
  /-- The tokens the parser has passed over, errors and the end of the source left out. -/
  scanned : List Token := []
  /-- The parse functions entered and not left, and the most of them at any time. -/
  calls : ℕ := 0
  deepest : ℕ := 0
  /-- The bridges and alignment widths entered and not left, and the most of them at any time. -/
  nested : ℕ := 0
  deepestNested : ℕ := 0
  /-- The most operators that one expression loop has put around its operand. -/
  rounds : ℕ := 0
  /-- A loop went round without a token passed over and without an error. -/
  stalled : Bool := false
  /-- A token was passed over that nothing in the tree stands for. -/
  skipped : Bool := false
  /-- A group without an expression came before an assignment operator. -/
  emptyGroup : Bool := false
  /-- A scan began at a quoted text that ends in a backslash at the end of the source. -/
  openEscape : Bool := false
  /-- A look-ahead passed a line end, and the lexer was put back without its line. -/
  recounted : Bool := false
  deriving DecidableEq, Repr

/-- `SlpParser`. -/
structure Parser where
  lexer : Lexer
  previous : Token := { type := .error }
  current : Token := { type := .error }
  hadError : Bool := false
  panicMode : Bool := false
  errorLine : ℤ := 0
  errorMessage : Option Bytes := none
  depth : ℕ := 0
  trail : Trail := {}
  deriving DecidableEq, Repr

/-- `slp_parser_init`. -/
def Parser.init (source : Bytes) : Parser := { lexer := Lexer.init source }

/-- A parse function: the state is kept when there is no result. -/
abbrev ParserM := ExceptT Fault (StateM Parser)

/-- `SLP_PARSER_MAX_DEPTH`. -/
def maxDepth : ℕ := 100

/-! ### The core -/

namespace Parser

/-- The trail after a step that the parser takes no notice of. -/
def note (s : Parser) (f : Trail → Trail) : Parser := { s with trail := f s.trail }

def openCall (s : Parser) : Parser := s.note fun t =>
  { t with calls := t.calls + 1, deepest := max t.deepest (t.calls + 1) }

def closeCall (s : Parser) : Parser := s.note fun t => { t with calls := t.calls - 1 }

def openNested (s : Parser) : Parser := s.note fun t =>
  { t with nested := t.nested + 1, deepestNested := max t.deepestNested (t.nested + 1) }

def closeNested (s : Parser) : Parser := s.note fun t => { t with nested := t.nested - 1 }

/-- The start of a parse of another text. -/
def openText (s : Parser) (source : Bytes) : Parser :=
  { Parser.init source with trail := { s.trail with scanned := [] } }

/-- The end of a parse of another text. -/
def closeText (s inner : Parser) : Parser :=
  { s with trail := { inner.trail with scanned := s.trail.scanned } }

/-- The end of a time round a loop that began with `before` tokens passed over. -/
def closeIteration (s : Parser) (before : ℕ) : Parser := s.note fun t =>
  { t with stalled := t.stalled || (t.scanned.length == before && !s.hadError) }

/-- The end of a look-ahead that began on a line. -/
def closeLookahead (s : Parser) (line : ℕ) : Parser := s.note fun t =>
  { t with recounted := t.recounted || s.lexer.line != line }

/-- The current token becomes the previous one. -/
def passOver (s : Parser) : Parser :=
  { s with
    previous := s.current
    trail := { s.trail with
      scanned := if s.current.type = .error ∨ s.current.type = .eof then s.trail.scanned
        else s.trail.scanned ++ [s.current] } }

end Parser

/-- A function call. -/
def enter {α : Type} (p : ParserM α) : ParserM α := do
  modify Parser.openCall
  let a ← p
  modify Parser.closeCall
  pure a

/-- A call that the depth of the parser does not count. -/
def enterNested {α : Type} (p : ParserM α) : ParserM α := do
  modify Parser.openNested
  let a ← p
  modify Parser.closeNested
  pure a

/-- One time round a loop. -/
def iteration {α : Type} (p : ParserM α) : ParserM α := do
  let before := (← get).trail.scanned.length
  let a ← p
  modify fun s => s.closeIteration before
  pure a

/-- A token without a node. -/
def noteSkipped (b : Bool) : ParserM Unit :=
  modify fun s => s.note fun t => { t with skipped := t.skipped || b }

/-- `error_at`. -/
def Parser.errorAt (s : Parser) (token : Token) (message : Bytes) : Parser :=
  if s.panicMode then s
  else { s with panicMode := true, hadError := true, errorLine := token.line,
                errorMessage := some message }

/-- `error`. -/
def error (message : Bytes) : ParserM Unit := modify fun s => s.errorAt s.previous message

/-- `error_at_current`. -/
def errorAtCurrent (message : Bytes) : ParserM Unit := modify fun s => s.errorAt s.current message

/-- `slp_lexer_scan_token` on the lexer of the parser. -/
def scan : ParserM Token := do
  let lexer := (← get).lexer
  modify fun s => s.note fun t => { t with openEscape := t.openEscape || lexer.opensEscape }
  match scanToken lexer with
  | .ok (token, lexer) =>
    modify fun s => { s with lexer }
    pure token
  | .error fault => throw fault

/-- The loop of `advance`: error tokens are reported and passed over. -/
def advanceLoop : ℕ → ParserM Unit
  | 0 => throw .fuel
  | n + 1 => do
    let token ← scan
    modify fun s => { s with current := token }
    if token.type = .error then
      errorAtCurrent token.text
      advanceLoop n

/-- `advance`. -/
def advance : ParserM Unit := do
  modify Parser.passOver
  advanceLoop ((← get).lexer.current.length + 1)

/-- `check`. -/
def check (type : TokenType) : ParserM Bool := do return (← get).current.type == type

/-- `match`. -/
def matchToken (type : TokenType) : ParserM Bool := do
  if (← get).current.type = type then
    advance
    return true
  return false

/-- `consume`. -/
def consume (type : TokenType) (message : String) : ParserM Unit := do
  if (← get).current.type = type then advance
  else errorAtCurrent (ascii message)

/-- The line of a node that is allocated now. -/
def nodeLine : ParserM ℤ := do return (← get).previous.line

/-- The text of the token just passed over. -/
def previousText : ParserM Bytes := do return (← get).previous.text

/-- The token after the current one; `restore` puts the lexer back, as far as the caller does. -/
def lookahead (restore : Lexer → Lexer → Lexer) : ParserM Token := do
  let saved := (← get).lexer
  let token ← scan
  modify fun s => { s with lexer := restore saved s.lexer }
  modify fun s => s.closeLookahead saved.line
  pure token

/-! ### Rules -/

namespace Precedence

def none : ℕ := 0
def assignment : ℕ := 1
def lor : ℕ := 2
def land : ℕ := 3
def bitOr : ℕ := 4
def bitXor : ℕ := 5
def bitAnd : ℕ := 6
def equality : ℕ := 7
def comparison : ℕ := 8
def shift : ℕ := 9
def concat : ℕ := 10
def term : ℕ := 11
def factor : ℕ := 12
def unary : ℕ := 13
def incdec : ℕ := 14
def exp : ℕ := 15
def call : ℕ := 16

end Precedence

/-- The functions that parse what an expression may begin with. -/
inductive Opening where
  | grouping | blockExpr | objExpr | unary | identifier | stringVal | number | literal | scalar
  | array | hash | backtickExpr | addressExpr | classExpr | command | bridge | inlinePrefix
  deriving DecidableEq, Repr

/-- The functions that parse what may follow an operand. -/
inductive Following where
  | call | indexAcc | binary | negatedBinary | assignment | logical | postfixOp
  deriving DecidableEq, Repr

/-- `ParseRule`. -/
structure ParseRule where
  opening : Option Opening := none
  following : Option Following := none
  precedence : ℕ := Precedence.none
  deriving DecidableEq, Repr

/-- `rules`; a token type without an entry has the empty rule. -/
def rules : TokenType → ParseRule
  | .leftParen => ⟨some .grouping, some .call, Precedence.call⟩
  | .leftBrace => ⟨some .blockExpr, none, Precedence.none⟩
  | .leftBracket => ⟨some .objExpr, some .indexAcc, Precedence.call⟩
  | .dot => ⟨none, some .binary, Precedence.concat⟩
  | .minus | .plus => ⟨some .unary, some .binary, Precedence.term⟩
  | .slash | .star | .lowerX => ⟨none, some .binary, Precedence.factor⟩
  | .bang => ⟨some .unary, some .negatedBinary, Precedence.unary⟩
  | .ne | .eq | .eqi | .neqi | .spaceship => ⟨none, some .binary, Precedence.equality⟩
  | .builtinBinaryPredicateBridge => ⟨none, some .binary, Precedence.equality⟩
  | .greater | .ge | .less | .le => ⟨none, some .binary, Precedence.comparison⟩
  | .id | .copy | .addAll | .println | .removeAll | .retainAll =>
    ⟨some .identifier, none, Precedence.none⟩
  | .string | .literal => ⟨some .stringVal, none, Precedence.none⟩
  | .number | .double | .long => ⟨some .number, none, Precedence.none⟩
  | .true | .false | .null => ⟨some .literal, none, Precedence.none⟩
  | .land => ⟨none, some .logical, Precedence.land⟩
  | .lor => ⟨none, some .logical, Precedence.lor⟩
  | .scalar => ⟨some .scalar, none, Precedence.none⟩
  | .at => ⟨some .array, none, Precedence.none⟩
  | .percent => ⟨some .hash, some .binary, Precedence.factor⟩
  | .backtickExpr => ⟨some .backtickExpr, none, Precedence.none⟩
  | .unaryPredicateBridge => ⟨some .unary, none, Precedence.unary⟩
  | .ampersand => ⟨none, some .binary, Precedence.bitAnd⟩
  | .pipe => ⟨none, some .binary, Precedence.bitOr⟩
  | .caret => ⟨none, some .binary, Precedence.bitXor⟩
  | .lshift | .rshift => ⟨none, some .binary, Precedence.shift⟩
  | .exp => ⟨none, some .binary, Precedence.exp⟩
  | .address | .argPassedByName => ⟨some .addressExpr, none, Precedence.none⟩
  | .classLiteral => ⟨some .classExpr, none, Precedence.none⟩
  | .equal | .andEqual | .catEqual | .divEqual | .lshiftEqual | .minusEqual | .orEqual
  | .plusEqual | .rshiftEqual | .timesEqual | .xorEqual | .expEqual =>
    ⟨none, some .assignment, Precedence.assignment⟩
  | .assert | .break | .continue | .done | .halt | .return | .throw | .yield | .callcc
  | .local | .this => ⟨some .command, none, Precedence.none⟩
  | .sub => ⟨some .bridge, none, Precedence.none⟩
  | .inline => ⟨some .inlinePrefix, none, Precedence.none⟩
  | .inc | .dec => ⟨some .unary, some .postfixOp, Precedence.incdec⟩
  | _ => {}

/-- Whether a token is an assignment operator. -/
def isAssignment : TokenType → Bool
  | .equal | .andEqual | .catEqual | .divEqual | .lshiftEqual | .minusEqual | .orEqual
  | .plusEqual | .rshiftEqual | .timesEqual | .xorEqual | .expEqual => true
  | _ => false

/-- Whether a token is a binary operator or a binary predicate. -/
def isBinary (type : TokenType) : Bool :=
  (rules type).following = some .binary || (rules type).following = some .logical

/-! ### Expressions -/

/-- The variables of `parse_double_quoted_string`. -/
structure Parts where
  cursor : Bytes
  cursorLine : ℤ
  literalLine : ℤ
  literal : Bytes := []
  parts : List Tree := []
  deriving Repr

/-- `FLUSH_PARSED_LITERAL`. -/
def Parts.flush (p : Parts) : Parts :=
  if p.literal = [] then p
  else { p with parts := p.parts ++ [.string p.literalLine p.literal], literal := [] }

/-- The functions and loops through which the parser calls itself. -/
structure Calls where
  parsePrecedence : ℕ → ParserM Tree
  statement : ParserM Tree
  declaration : ParserM Tree
  /-- The operators of `parse_precedence_inner`, with the number of them so far. -/
  precedenceLoop : ℕ → ℕ → Tree → ParserM Tree
  /-- The string literals of `parse_precedence_inner`. -/
  juxtaposeLoop : Bytes → ParserM Bytes
  /-- The elements of a tuple. -/
  tupleLoop : List Tree → ParserM (List Tree)
  /-- The statements of a block. -/
  blockLoop : List Tree → ParserM (List Tree)
  /-- The statements of a script. -/
  scriptLoop : List Tree → ParserM (List Tree)
  /-- The initializers or the increments of a loop, up to a token. -/
  forLoop : TokenType → List Tree → ParserM (List Tree)
  /-- The arguments of a call, up to a token. -/
  argsLoop : TokenType → List Tree → ParserM (List Tree)
  /-- The components of a qualified class name. -/
  qualifiedLoop : Bytes → ParserM Bytes
  /-- The components of an import. -/
  importLoop : Bytes → ParserM Bytes
  /-- The parts of a double-quoted string. -/
  partsLoop : Parts → ParserM (Option Parts)

section Functions

variable (r : Calls)

/-- `expression`. -/
def expression : ParserM Tree := enter (r.parsePrecedence Precedence.assignment)

/-- `binary`. -/
def binary (left : Tree) : ParserM Tree := enter do
  let operatorToken := (← get).previous
  let right ← r.parsePrecedence ((rules operatorToken.type).precedence + 1)
  return .binop operatorToken.line operatorToken false left right

/-- `negated_binary`. -/
def negatedBinary (left : Tree) : ParserM Tree := enter do
  advance
  let predicateToken := (← get).previous
  noteSkipped (!isBinary predicateToken.type)
  let right ← r.parsePrecedence Precedence.equality
  return .binop predicateToken.line predicateToken true left right

/-- `unary`. -/
def unary : ParserM Tree := enter do
  let operatorToken := (← get).previous
  let operand ← r.parsePrecedence Precedence.unary
  return .unaryop operatorToken.line operatorToken operand false

/-- `assignment`. -/
def assignment (left : Tree) : ParserM Tree := enter do
  let operatorToken := (← get).previous
  let right ← r.parsePrecedence Precedence.assignment
  return .assignment operatorToken.line operatorToken left right

/-- `identifier`. -/
def identifier : ParserM Tree := enter do return .identifier (← nodeLine) (← previousText)

/-- The escapes of `copy_unquoted_lexeme` in a single-quoted literal. -/
def unescapeLiteral : Bytes → Bytes
  | [] => []
  | [c] => [c]
  | c :: d :: cs =>
    if c = chr '\\' ∧ (d = chr '\'' ∨ d = chr '\\') then d :: unescapeLiteral cs
    else c :: unescapeLiteral (d :: cs)

/-- `copy_unquoted_lexeme` of a single-quoted literal. -/
def copyUnquotedLexeme (text : Bytes) : Bytes :=
  if text.length < 2 then text else unescapeLiteral (text.tail.take (text.length - 2))

/-- `number`. -/
def number : ParserM Tree := enter do
  let token := (← get).previous
  if token.type = .long then return .long (← nodeLine) token.text
  else return .number (← nodeLine) (token.type = .double) token.text

/-- `literal`. -/
def literal : ParserM Tree := enter do
  match (← get).previous.type with
  | .false => return .boolean (← nodeLine) false
  | .true => return .boolean (← nodeLine) true
  | .null => return .null (← nodeLine)
  | _ => return .missing

/-- The name in the node that `scalar` makes of the token just passed over. -/
def scalarName : ParserM Bytes := do return (← previousText).tail

/-- `scalar`. -/
def scalar : ParserM Tree := enter do return .scalar (← nodeLine) (← scalarName)

/-! ### Arguments -/

/-- Whether the current token is a lone `x`. -/
def isLoneX (token : Token) : Bool :=
  (token.type = .lowerX || token.type = .id) && token.text = ascii "x"

/-- The value or the name of an argument: a lone `x` before `=>` is a name. -/
def argumentHead : ParserM Tree := do
  if isLoneX (← get).current then
    let next ← lookahead fun saved lexer => { lexer with current := saved.current }
    if next.type = .arrow then
      advance
      return .identifier (← nodeLine) (← previousText)
    else expression r
  else expression r

/-- The name of an argument, where it has one, and its value. -/
def argumentParts (expr : Tree) : ParserM (Tree × Tree) := do
  if ← matchToken .arrow then return (expr, ← expression r)
  return (.missing, expr)

/-- One argument, and whether another may follow. -/
def argument (endToken : TokenType) : ParserM (Tree × Bool) := do
  let expr ← argumentHead r
  let line ← nodeLine
  let (name, value) ← argumentParts r expr
  let node := .arg line name value
  if ← check endToken then return (node, false)
  if ← matchToken .comma then return (node, true)
  match name.argumentName? with
  | some s =>
    error ((ascii "key/value pair specified for '" ++ s ++
      ascii "', did you forget a comma?").take 255)
  | none => error (ascii "Expect ',' between arguments")
  return (node, false)

/-- `parse_args`. -/
def parseArgs (endToken : TokenType) : ParserM (List Tree) := enter do
  if ← check endToken then return [] else r.argsLoop endToken []

/-- `array` and `hash`: the list constructor, or a variable. -/
def container (sigil : String) (make : ℤ → Bytes → Tree) (before after : String) : ParserM Tree :=
  enter do
    let token := (← get).previous
    if token.text.length = 1 then
      consume .leftParen before
      let line ← nodeLine
      let args ← parseArgs r .rightParen
      consume .rightParen after
      return .call line (make line (ascii sigil)) args
    return make (← nodeLine) token.text.tail

/-- `array`. -/
def array : ParserM Tree :=
  container r "@" .array "Expect '(' after '@'." "Expect ')' after array arguments."

/-- `hash`. -/
def hash : ParserM Tree :=
  container r "%" .hashtable "Expect '(' after '%'." "Expect ')' after hash arguments."

/-- `call`. -/
def call (left : Tree) : ParserM Tree := enter do
  let line ← nodeLine
  let args ← parseArgs r .rightParen
  consume .rightParen "Expect ')' after arguments."
  return .call line left args

/-! ### Groups, indices and postfix operators -/

/-- `grouping`. -/
def grouping : ParserM Tree := enter do
  let expr ← expression r
  if ← check .comma then
    let line ← nodeLine
    let elements ← r.tupleLoop [expr]
    consume .rightParen "Expect ')' after tuple."
    return .lvalueTuple line elements
  consume .rightParen "Expect ')' after expression."
  if isAssignment (← get).current.type then
    if expr.isMissing then
      modify fun s => s.note fun t => { t with emptyGroup := true }
      throw .nullDeref
    if expr.isVariable then return .lvalueTuple (← nodeLine) [expr]
  return expr

/-- `postfix`. -/
def postfixOp (left : Tree) : ParserM Tree := enter do
  return .unaryop (← nodeLine) (← get).previous left true

/-- `logical`. -/
def logical (left : Tree) : ParserM Tree := enter do
  let operatorToken := (← get).previous
  let right ← r.parsePrecedence ((rules operatorToken.type).precedence + 1)
  return .binop (← nodeLine) operatorToken false left right

/-- `index_acc`. -/
def indexAcc (left : Tree) : ParserM Tree := enter do
  let element ← expression r
  consume .rightBracket "Expect ']' after index."
  return .index (← nodeLine) left element

/-! ### Object expressions -/

/-- `object_target_starts_qualified_name`. -/
def objectTargetStartsQualifiedName : ParserM Bool := do
  if ← check .id then
    let next ← lookahead fun saved _ => saved
    return next.type = .dot
  return false

/-- `qualified_object_target`; the buffer holds 512 bytes. -/
def qualifiedObjectTarget : ParserM Tree := enter do
  let name ← r.qualifiedLoop []
  return .classLiteral (← nodeLine) name

/-- The keywords that may be a message. -/
def isCommandKeyword : TokenType → Bool
  | .return | .throw | .yield | .assert | .callcc | .halt | .done | .local | .this | .break
  | .continue => true
  | _ => false

/-- The arguments after the colon of an object expression. -/
def objExprArgs : ParserM (List Tree) := do
  let args ← parseArgs r .rightBracket
  if args.isEmpty then error (ascii "Expect at least one argument after ':'.")
  return args

/-- The target of an object expression. -/
def objectTarget : ParserM Tree := do
  if ← objectTargetStartsQualifiedName then qualifiedObjectTarget r else expression r

/-- The message of an object expression: a keyword stands for its name. -/
def objExprMessage : ParserM Tree := do
  if isCommandKeyword (← get).current.type then
    advance
    return .identifier (← nodeLine) (← previousText)
  else expression r

/-- The message and the arguments of an object expression. -/
def objExprRest : ParserM (Tree × List Tree) := do
  if ← matchToken .colon then return (.missing, ← objExprArgs r)
  if ← check .rightBracket then return (.missing, [])
  let message ← objExprMessage r
  if ← matchToken .colon then return (message, ← objExprArgs r)
  return (message, [])

/-- `obj_expr`. -/
def objExpr : ParserM Tree := enter do
  let line ← nodeLine
  let target ← objectTarget r
  let (message, args) ← objExprRest r
  consume .rightBracket "Expect ']' after object expression."
  return .objExpr line target message args

/-! ### Commands and bridges -/

/-- The command of a keyword. -/
def commandOf : TokenType → Command
  | .return => .return
  | .throw => .throw
  | .yield => .yield
  | .assert => .assert
  | .callcc => .callcc
  | .halt => .halt
  | .done => .done
  | .local => .local
  | .this => .this
  | .break => .break
  | .continue => .continue
  | _ => .nop

/-- Whether a command ends before the current token. -/
def endsCommand : TokenType → Bool
  | .semicolon | .eof | .rightParen | .rightBrace => true
  | _ => false

/-- `command`: the operand of `return` and `yield` begins on the same line. -/
def command : ParserM Tree := enter do
  let op := (← get).previous
  let line ← nodeLine
  let s ← get
  let allowArgument :=
    !((op.type = .return || op.type = .yield) && decide (op.line < s.lexer.startLine))
  if endsCommand s.current.type || !allowArgument then
    return .command line (commandOf op.type) .missing .missing
  let value ← expression r
  if op.type = .assert then
    if ← matchToken .colon then
      let next := (← get).current.type
      if next = .semicolon ∨ next = .eof then
        noteSkipped true
        return .command line (commandOf op.type) value .missing
      let message ← expression r
      return .command line (commandOf op.type) value message
  return .command line (commandOf op.type) value .missing

/-- `block`. -/
def block : ParserM Tree := enter do
  consume .leftBrace "Expect '\x7b' to start block."
  let line ← nodeLine
  let statements ← r.blockLoop []
  consume .rightBrace "Expect '\x7d' after block."
  return .block line statements

/-- `bridge`. -/
def bridge : ParserM Tree := enter do
  let line ← nodeLine
  let keyword ← previousText
  let identifier ← if ← matchToken .id then some <$> previousText else pure none
  let isString ← matchToken .string
  let isString ← if isString then pure true else matchToken .literal
  let string ← if isString then some <$> previousText else pure none
  let body ← if ← check .leftBrace then enterNested (block r) else pure .missing
  return .envBridge line (some keyword) identifier string body

/-- `inline_prefix`. -/
def inlinePrefix : ParserM Tree := enter do
  if ← check .leftParen then identifier else bridge r

/-- `backtick_expr`. -/
def backtickExpr : ParserM Tree := enter do
  let text ← previousText
  return .backtick (← nodeLine) (text.tail.take (text.length - 2))

/-- `address_expr`. -/
def addressExpr : ParserM Tree := enter do return .address (← nodeLine) (← previousText).tail

/-- `class_expr`. -/
def classExpr : ParserM Tree := enter do return .classLiteral (← nodeLine) (← previousText).tail

/-- `block_expr`. -/
def blockExpr : ParserM Tree := enter do
  let line ← nodeLine
  let statements ← r.blockLoop []
  consume .rightBrace "Expect '\x7d' after block."
  return .envBridge line none none none (.block line statements)

/-! ### Double-quoted strings -/

/-- `parsed_string_var_end`. -/
def parsedStringVarEnd (c : UInt8) : Bool :=
  c == chr ' ' || c == chr '\t' || c == chr '\n' || c == chr '$' || c == chr '\\'

/-- The text up to the bracket that closes the alignment, and what follows the bracket. -/
def splitWidth : ℕ → Bytes → Option (Bytes × Bytes)
  | _, [] => none
  | depth, c :: cs =>
    if c = chr '[' then (splitWidth (depth + 1) cs).map fun w => (c :: w.1, w.2)
    else if c = chr ']' then
      if depth ≤ 1 then some ([], cs)
      else (splitWidth (depth - 1) cs).map fun w => (c :: w.1, w.2)
    else (splitWidth depth cs).map fun w => (c :: w.1, w.2)

/-- The line ends in a text. -/
def newlines (cs : Bytes) : ℕ := cs.count (chr '\n')

/-- A parse of another text, by a parser of its own; the trails are one. -/
def onText {α : Type} (source : Bytes) (p : ParserM α) : ParserM (α × Parser) := fun s =>
  let (result, inner) := p (s.openText source)
  (result.map fun a => (a, inner), s.closeText inner)

/-- `parse_alignment_width`. -/
def parseAlignmentWidth (source : Bytes) : ParserM Tree := enter do
  let (width, inner) ← enterNested (onText source do advance; expression r)
  if inner.hadError || width.isMissing || inner.current.type ≠ .eof then
    error (inner.errorMessage.getD (ascii "Invalid alignment expression."))
    return .missing
  return width

/-- The escapes of a double-quoted string. -/
def unescape (c : UInt8) : UInt8 :=
  if c = chr 'n' then chr '\n' else if c = chr 't' then chr '\t' else if c = chr 'r' then chr '\r'
  else c

/-- The alignment after a dollar sign: the width, and the parts with the cursor on the name. -/
def alignment (p : Parts) : ParserM (Option (Tree × Parts)) := do
  match p.cursor with
  | c :: cs =>
    if c = chr '[' then
      match splitWidth 1 cs with
      | none =>
        error (ascii "missing close brace for variable alignment")
        return none
      | some (source, rest) =>
        if source = [] then
          error (ascii "Empty alignment specification")
          return none
        let width ← parseAlignmentWidth r source
        if width.isMissing then return none
        if rest = [] ∨ parsedStringVarEnd (peek rest) then
          error (ascii "can not align an empty variable")
          return none
        return some (width, { p with cursor := rest, cursorLine := p.cursorLine + newlines source })
    else return some (.missing, p)
  | [] => return some (.missing, p)

/-- The variable after a dollar sign. -/
def stringVariable (p : Parts) : ParserM (Option Parts) := do
  let valueLine := p.cursorLine
  match ← alignment r p with
  | none => return none
  | some (width, p) =>
    let isName c := !parsedStringVarEnd c
    let value := Tree.scalar valueLine (p.cursor.takeWhile isName)
    let part := if width.isMissing then value else .align valueLine width value
    return some { p with
      cursor := p.cursor.dropWhile isName
      parts := p.parts ++ [part]
      literalLine := p.cursorLine }

/-- One time round the loop of `parse_double_quoted_string`. -/
def part (p : Parts) : ParserM (Option Parts) := do
  if 510 ≤ p.parts.length then
    error (ascii "String has too many interpolated segments.")
    return none
  match p.cursor with
  | [] => return some p
  | c :: cs =>
    if c = chr '\\' ∧ cs ≠ [] then
      let line := if peek cs = chr '\n' then p.cursorLine + 1 else p.cursorLine
      return some { p with
        cursor := cs.tail, cursorLine := line, literal := p.literal ++ [unescape (peek cs)] }
    if c = chr ' ' ∧ cs.take 3 = ascii "$+ " then return some { p with cursor := cs.drop 3 }
    if c = chr '$' ∧ peek cs = chr '+' then
      error (ascii "operator $+ must be surrounded with whitespace")
      return none
    if c = chr '$' ∧ cs ≠ [] ∧ !parsedStringVarEnd (peek cs) then
      return ← stringVariable r { p.flush with cursor := cs }
    let line := if c = chr '\n' then p.cursorLine + 1 else p.cursorLine
    return some { p with cursor := cs, cursorLine := line, literal := p.literal ++ [c] }

/-- The parts of a string joined from the left. -/
def joinParts : Tree → List Tree → Tree
  | result, [] => result
  | result, t :: ts =>
    joinParts (.binop t.line { type := .dot, text := ascii ".", line := t.line } false result t) ts

/-- `parse_double_quoted_string`. -/
def parseDoubleQuotedString (token : Token) : ParserM Tree := enter do
  if token.text.length < 2 then return .string (← nodeLine) []
  let line := token.line - newlines token.text
  match ← r.partsLoop {
      cursor := token.text.tail.take (token.text.length - 2), cursorLine := line,
      literalLine := line } with
  | none => return .missing
  | some p =>
    match p.flush.parts with
    | [] => return .string (← nodeLine) []
    | t :: ts => return joinParts t ts

/-- `string_val`. -/
def stringVal : ParserM Tree := enter do
  let token := (← get).previous
  if token.type = .string then parseDoubleQuotedString r token
  else return .string (← nodeLine) (copyUnquotedLexeme token.text)

/-! ### Operator precedence -/

/-- The call of the function that begins an expression. -/
def runOpening : Opening → ParserM Tree
  | .grouping => grouping r
  | .blockExpr => blockExpr r
  | .objExpr => objExpr r
  | .unary => unary r
  | .identifier => identifier
  | .stringVal => stringVal r
  | .number => number
  | .literal => literal
  | .scalar => scalar
  | .array => array r
  | .hash => hash r
  | .backtickExpr => backtickExpr
  | .addressExpr => addressExpr
  | .classExpr => classExpr
  | .command => command r
  | .bridge => bridge r
  | .inlinePrefix => inlinePrefix r

/-- The call of the function that goes on with an expression. -/
def runFollowing (left : Tree) : Following → ParserM Tree
  | .call => call r left
  | .indexAcc => indexAcc r left
  | .binary => binary r left
  | .negatedBinary => negatedBinary r left
  | .assignment => assignment r left
  | .logical => logical r left
  | .postfixOp => postfixOp left

/-- Whether a token is a string literal. -/
def isStringToken (type : TokenType) : Bool := type = .string || type = .literal

/-- The string literals right after a string literal: their lexemes are added to it. -/
def juxtapose (expr : Tree) : ParserM Tree := do
  match expr with
  | .string line s =>
    if isStringToken (← get).current.type then return .string line (← r.juxtaposeLoop s)
    else return expr
  | _ => return expr

/-- `parse_precedence_inner`. -/
def parsePrecedenceInner (precedence : ℕ) : ParserM Tree := enter do
  advance
  match (rules (← get).previous.type).opening with
  | none =>
    error (ascii "Expect expression.")
    return .missing
  | some opening =>
    let expr ← runOpening r opening
    let expr ← juxtapose r expr
    r.precedenceLoop precedence 0 expr

/-- A call of a function that the depth of the parser counts. -/
def guarded (message : String) (p : ParserM Tree) : ParserM Tree := enter do
  if maxDepth ≤ (← get).depth then
    error (ascii message)
    return .missing
  modify fun s => { s with depth := s.depth + 1 }
  let node ← p
  modify fun s => { s with depth := s.depth - 1 }
  return node

/-- `parse_precedence`. -/
def parsePrecedence (precedence : ℕ) : ParserM Tree :=
  guarded "Expression nested too deeply." (parsePrecedenceInner r precedence)

/-! ### Statements -/

/-- `expression_statement`. -/
def expressionStatement : ParserM Tree := enter do
  let expr ← expression r
  if ← matchToken .semicolon then return expr
  let s ← get
  if s.current.type = .rightBrace ∨ s.current.type = .eof ∨ s.previous.line < s.current.line then
    return expr
  error (ascii "Missing terminator")
  return expr

/-- `if_statement`. -/
def ifStatement : ParserM Tree := enter do
  let line ← nodeLine
  consume .leftParen "Expect '(' after 'if'."
  let condition ← expression r
  consume .rightParen "Expect ')' after condition."
  let thenBranch ← r.statement
  let elseBranch ← if ← matchToken .else then r.statement else pure .missing
  return .ifStmt line condition thenBranch elseBranch

/-- `while_statement`. -/
def whileStatement : ParserM Tree := enter do
  let line ← nodeLine
  let assigned ← if ← matchToken .scalar then some <$> scalarName else pure none
  consume .leftParen "Expect '(' after 'while'."
  let condition ← expression r
  consume .rightParen "Expect ')' after condition."
  let body ← block r
  match assigned with
  | some value => return .assignLoop line value condition body
  | none => return .whileStmt line condition body

/-- `for_statement`. -/
def forStatement : ParserM Tree := enter do
  let line ← nodeLine
  consume .leftParen "Expect '(' after 'for'."
  let initializer ← r.forLoop .semicolon []
  consume .semicolon "Expect ';' after for loop initializer."
  let condition ← if ← check .semicolon then pure .missing else expression r
  consume .semicolon "Expect ';' after for loop condition."
  let increment ← r.forLoop .rightParen []
  consume .rightParen "Expect ')' after for loop increment."
  let body ← r.statement
  return .forStmt line initializer condition increment body

/-- The tokens that name a variable of a `foreach`. -/
def isForeachVariable : TokenType → Bool
  | .scalar | .percent | .at => true
  | _ => false

/-- The variables of a `foreach`: the key, where there are two, and the value. -/
def foreachVariables : ParserM (Option Bytes × Bytes) := do
  if isForeachVariable (← get).current.type then
    advance
    let first ← scalarName
    if ← matchToken .arrow then
      if isForeachVariable (← get).current.type then
        advance
        return (some first, ← scalarName)
      -- the name serves as key and as value
      error (ascii "Expect value variable.")
      return (some first, first)
    return (none, first)
  return (none, ascii "stub_var")

/-- `foreach_statement`. -/
def foreachStatement : ParserM Tree := enter do
  let line ← nodeLine
  let (index, value) ← foreachVariables
  consume .leftParen "Expect '(' after foreach variable."
  let source ← expression r
  consume .rightParen "Expect ')' after collection."
  let body ← block r
  return .foreachStmt line index value source body

/-- `try_statement`: any token is taken for the variable of the handler. -/
def tryStatement : ParserM Tree := enter do
  let line ← nodeLine
  let body ← block r
  if ← matchToken .catch then
    advance
    noteSkipped ((← get).previous.type ≠ .scalar)
    let value ← scalarName
    let handler ← block r
    return .tryCatch line body (some value) handler
  return .tryCatch line body none .missing

/-- `statement_inner`. -/
def statementInner : ParserM Tree := enter do
  if ← matchToken .semicolon then return .nop (← nodeLine)
  if ← matchToken .if then return ← ifStatement r
  if ← matchToken .while then return ← whileStatement r
  if ← matchToken .for then return ← forStatement r
  if ← matchToken .foreach then return ← foreachStatement r
  if ← matchToken .try then return ← tryStatement r
  if ← check .leftBrace then return ← block r
  expressionStatement r

/-- `statement`. -/
def statement : ParserM Tree := guarded "Statements nested too deeply." (statementInner r)

/-! ### Declarations -/

/-- A part that `import_statement` adds to its buffer of 512 bytes, if it fits. -/
def addPart (target part : Bytes) : ParserM Bytes := do
  if target.length + part.length < 511 then return target ++ part
  noteSkipped true
  return target

/-- The target of an import. -/
def importTarget : ParserM Bytes := do
  let type := (← get).current.type
  if type = .id ∨ type = .string then
    advance
    r.importLoop (← addPart [] (← previousText))
  else return []

/-- The path of an import. -/
def importPath : ParserM (Option Bytes) := do
  if ← matchToken .from then
    consume .colon "Expect ':' after FROM."
    let type := (← get).current.type
    if type = .string ∨ type = .importPath ∨ type = .literal then
      advance
      return some (← previousText)
    noteSkipped true
  return none

/-- `import_statement`. -/
def importStatement : ParserM Tree := enter do
  let line ← nodeLine
  let target ← importTarget r
  let path ← importPath
  let _ ← matchToken .semicolon
  return .importStmt line (if target = [] then none else some target) path

/-- Whether a token after a name makes a bridge of the two. -/
def continuesBridge : TokenType → Bool
  | .id | .string | .literal | .leftBrace => true
  | _ => false

/-- `declaration`. -/
def declaration : ParserM Tree := enter do
  if ← matchToken .sub then return ← bridge r
  if ← check .inline then
    let next ← lookahead fun saved _ => saved
    if next.type ≠ .leftParen then
      advance
      return ← bridge r
  if ← matchToken .import then return ← importStatement r
  if ← check .id then
    let next ← lookahead fun saved lexer => { saved with startLine := lexer.startLine }
    if continuesBridge next.type then
      advance
      return ← bridge r
  r.statement

/-! ### Loops -/

/-- The `while` of `parse_precedence_inner`: a token without an infix rule is passed over. -/
def precedenceStep (precedence rounds : ℕ) (expr : Tree) : ParserM Tree := do
  let s ← get
  if !s.hadError && precedence ≤ (rules s.current.type).precedence then
    advance
    match (rules (← get).previous.type).following with
    | some following =>
      let expr ← runFollowing r expr following
      modify fun s => s.note fun t => { t with rounds := max t.rounds (rounds + 1) }
      r.precedenceLoop precedence (rounds + 1) expr
    | none =>
      noteSkipped true
      r.precedenceLoop precedence rounds expr
  else return expr

def juxtaposeStep (s : Bytes) : ParserM Bytes := do
  if isStringToken (← get).current.type then
    advance
    r.juxtaposeLoop (s ++ (← previousText))
  else return s

def tupleStep (elements : List Tree) : ParserM (List Tree) := do
  if ← check .comma then
    let element ← iteration do
      advance
      expression r
    r.tupleLoop (elements ++ [element])
  else return elements

/-- The statements so far and the next one, unless it is missing. -/
def addStatement (statements : List Tree) (stmt : Tree) : List Tree :=
  if stmt.isMissing then statements else statements ++ [stmt]

def blockStep (statements : List Tree) : ParserM (List Tree) := do
  let s ← get
  if s.current.type = .rightBrace ∨ s.current.type = .eof ∨ s.hadError then return statements
  let stmt ← iteration r.declaration
  r.blockLoop (addStatement statements stmt)

def scriptStep (statements : List Tree) : ParserM (List Tree) := do
  if ← matchToken .eof then return statements
  if (← get).hadError then return statements
  let stmt ← iteration r.declaration
  r.scriptLoop (addStatement statements stmt)

def forStep (endToken : TokenType) (nodes : List Tree) : ParserM (List Tree) := do
  let s ← get
  if s.current.type = endToken ∨ s.current.type = .eof then return nodes
  let (node, more) ← iteration do
    let node ← expression r
    let more ← matchToken .comma
    pure (node, more)
  if more then r.forLoop endToken (nodes ++ [node]) else return nodes ++ [node]

def argsStep (endToken : TokenType) (args : List Tree) : ParserM (List Tree) := do
  if ← check endToken then return args
  let (arg, more) ← iteration (argument r endToken)
  if more && !(← get).hadError then r.argsLoop endToken (args ++ [arg]) else return args ++ [arg]

/-- The loop of `qualified_object_target`. -/
def qualifiedStep (name : Bytes) : ParserM Bytes := do
  let (name, more) ← iteration do
    consume .id "Expect class name component after '.'."
    let component ← previousText
    let name := if 0 < name.length ∧ name.length + 1 < 512 then name ++ ascii "." else name
    if 512 ≤ name.length + component.length then
      error (ascii "Qualified class name is too long.")
      pure (name, false)
    else
      let more ← matchToken .dot
      pure (name ++ component, more)
  if more then r.qualifiedLoop name else return name

/-- The loop of `import_statement`. -/
def importStep (target : Bytes) : ParserM Bytes := do
  if ← check .dot then
    let target ← iteration do
      advance
      let target ← addPart target (ascii ".")
      let type := (← get).current.type
      if type = .id ∨ type = .string ∨ type = .star then
        advance
        addPart target (← previousText)
      else pure target
    r.importLoop target
  else return target

def partsStep (p : Parts) : ParserM (Option Parts) := do
  if p.cursor = [] then return some p
  match ← part r p with
  | none => return none
  | some p => r.partsLoop p

/-- The functions and loops over those of one level less. -/
def nextLevel : Calls where
  parsePrecedence := parsePrecedence r
  statement := statement r
  declaration := declaration r
  precedenceLoop := precedenceStep r
  juxtaposeLoop := juxtaposeStep r
  tupleLoop := tupleStep r
  blockLoop := blockStep r
  scriptLoop := scriptStep r
  forLoop := forStep r
  argsLoop := argsStep r
  qualifiedLoop := qualifiedStep r
  importLoop := importStep r
  partsLoop := partsStep r

/-- `slp_parser_parse`. -/
def parseScript : ParserM Tree := enter do
  advance
  if ← matchToken .eof then return .missing
  let line ← nodeLine
  return .script line (← r.scriptLoop [])

end Functions

/-- The functions and loops of the parser, to a number of levels. -/
def calls : ℕ → Calls
  | 0 =>
    { parsePrecedence := fun _ => throw .fuel
      statement := throw .fuel
      declaration := throw .fuel
      precedenceLoop := fun _ _ _ => throw .fuel
      juxtaposeLoop := fun _ => throw .fuel
      tupleLoop := fun _ => throw .fuel
      blockLoop := fun _ => throw .fuel
      scriptLoop := fun _ => throw .fuel
      forLoop := fun _ _ => throw .fuel
      argsLoop := fun _ _ => throw .fuel
      qualifiedLoop := fun _ => throw .fuel
      importLoop := fun _ => throw .fuel
      partsLoop := fun _ => throw .fuel }
  | n + 1 => nextLevel (calls n)

/-- Levels that are enough for any source of a length. -/
def levels (length : ℕ) : ℕ := 8 * length + 16

/-- A run of the parser over a source. -/
def parse (source : Bytes) : Except Fault Tree × Parser :=
  parseScript (calls (levels source.length)) (Parser.init source)

end Slp.Parse
