import Slp.Program.Contract
import Slp.Parse.Parser

/-!
# What the steps of the parser keep, its functions keep

`Primitives C`: the steps that the parse functions are made of are steady, for a contract `C source`
over each source.  Then all functions and loops are steady, on every level (`steady_calls`), and so is
the run over a script (`Primitives.parseScript`).

A look-ahead always puts back the cursor.  The other steps leave the lexer and the current token
alone, and what the trail says of them (`Silent`).
-/

namespace Slp.Parse

open Program

/-- A change of the state that has nothing to do with the tokens. -/
structure Silent (f : Parser → Parser) : Prop where
  lexer : ∀ s, (f s).lexer = s.lexer
  current : ∀ s, (f s).current = s.current
  scanned : ∀ s, (f s).trail.scanned = s.trail.scanned
  recounted : ∀ s, (f s).trail.recounted = s.trail.recounted

/-- The steps are steady.  A parse of another text keeps to the contract of that text. -/
structure Primitives (C : Bytes → Contract Fault Parser) : Prop where
  advance : ∀ source, (C source).Steady advance
  lookahead : ∀ source restore, (∀ saved lexer, (restore saved lexer : Lexer).current = saved.current) →
    (C source).Steady (lookahead restore)
  silent : ∀ source f, Silent f → (C source).Steady (modify f)
  throw : ∀ {α : Type} source fault, (C source).Steady (throw fault : ParserM α)
  text : ∀ {α : Type} source source' (p : ParserM α), (C source').Steady p →
    (C source).Steady (onText source' p)

/-- The functions and loops of a level are steady. -/
structure SteadyCalls (C : Bytes → Contract Fault Parser) (r : Calls) : Prop where
  parsePrecedence : ∀ source p, (C source).Steady (r.parsePrecedence p)
  statement : ∀ source, (C source).Steady r.statement
  declaration : ∀ source, (C source).Steady r.declaration
  precedenceLoop : ∀ source p j a, (C source).Steady (r.precedenceLoop p j a)
  juxtaposeLoop : ∀ source b, (C source).Steady (r.juxtaposeLoop b)
  tupleLoop : ∀ source as, (C source).Steady (r.tupleLoop as)
  blockLoop : ∀ source as, (C source).Steady (r.blockLoop as)
  scriptLoop : ∀ source as, (C source).Steady (r.scriptLoop as)
  forLoop : ∀ source type as, (C source).Steady (r.forLoop type as)
  argsLoop : ∀ source type as, (C source).Steady (r.argsLoop type as)
  qualifiedLoop : ∀ source b, (C source).Steady (r.qualifiedLoop b)
  importLoop : ∀ source b, (C source).Steady (r.importLoop b)
  partsLoop : ∀ source p, (C source).Steady (r.partsLoop p)

namespace Silent

theorem note {f : Trail → Trail} (hs : ∀ t, (f t).scanned = t.scanned)
    (hr : ∀ t, (f t).recounted = t.recounted) : Silent fun s => s.note f :=
  ⟨fun _ => rfl, fun _ => rfl, fun s => hs s.trail, fun s => hr s.trail⟩

theorem openCall : Silent Parser.openCall := .note (fun _ => rfl) fun _ => rfl

theorem closeCall : Silent Parser.closeCall := .note (fun _ => rfl) fun _ => rfl

theorem openNested : Silent Parser.openNested := .note (fun _ => rfl) fun _ => rfl

theorem closeNested : Silent Parser.closeNested := .note (fun _ => rfl) fun _ => rfl

theorem closeIteration (before : ℕ) : Silent (Parser.closeIteration · before) :=
  ⟨fun _ => rfl, fun _ => rfl, fun _ => rfl, fun _ => rfl⟩

theorem depth (f : ℕ → ℕ) : Silent fun s => { s with depth := f s.depth } :=
  ⟨fun _ => rfl, fun _ => rfl, fun _ => rfl, fun _ => rfl⟩

theorem errorAt (token : Parser → Token) (message : Bytes) :
    Silent fun s => s.errorAt (token s) message := by
  constructor <;> intro s <;> unfold Parser.errorAt <;> split <;> rfl

theorem emptyGroup : Silent fun s => s.note fun t => { t with emptyGroup := true } :=
  .note (fun _ => rfl) fun _ => rfl

theorem rounds (n : ℕ) : Silent fun s => s.note fun t => { t with rounds := max t.rounds n } :=
  .note (fun _ => rfl) fun _ => rfl

end Silent

variable {C : Bytes → Contract Fault Parser} {α : Type} {source : Bytes} {r : Calls}

namespace Primitives

open Contract

theorem read : (C source).Steady (get : ParserM Parser) := Steady.get

variable (h : Primitives C)

include h

theorem error (message : Bytes) : (C source).Steady (error message) :=
  h.silent _ _ (.errorAt Parser.previous message)

theorem errorAtCurrent (message : Bytes) : (C source).Steady (errorAtCurrent message) :=
  h.silent _ _ (.errorAt Parser.current message)

theorem noteSkipped (b : Bool) : (C source).Steady (noteSkipped b) :=
  h.silent _ _ (.note (fun _ => rfl) fun _ => rfl)

theorem enter {p : ParserM α} (hp : (C source).Steady p) : (C source).Steady (enter p) :=
  (h.silent _ _ .openCall).bind fun _ => hp.bind fun _ =>
    (h.silent _ _ .closeCall).bind fun _ => .pure _

theorem enterNested {p : ParserM α} (hp : (C source).Steady p) : (C source).Steady (enterNested p) :=
  (h.silent _ _ .openNested).bind fun _ => hp.bind fun _ =>
    (h.silent _ _ .closeNested).bind fun _ => .pure _

theorem iteration {p : ParserM α} (hp : (C source).Steady p) : (C source).Steady (iteration p) :=
  read.bind fun _ => hp.bind fun _ => (h.silent _ _ (.closeIteration _)).bind fun _ => .pure _

theorem guarded {message : String} {p : ParserM Tree} (hp : (C source).Steady p) :
    (C source).Steady (guarded message p) :=
  h.enter (read.bind fun _ => .ite ((h.error _).bind fun _ => .pure _)
    ((h.silent _ _ (.depth (· + 1))).bind fun _ => hp.bind fun _ =>
      (h.silent _ _ (.depth (· - 1))).bind fun _ => .pure _))

omit h in
theorem check {type : TokenType} : (C source).Steady (check type) := read.bind fun _ => .pure _

omit h in
theorem nodeLine : (C source).Steady nodeLine := read.bind fun _ => .pure _

omit h in
theorem previousText : (C source).Steady previousText := read.bind fun _ => .pure _

omit h in
theorem scalarName : (C source).Steady scalarName := previousText.bind fun _ => .pure _

theorem matchToken {type : TokenType} : (C source).Steady (matchToken type) :=
  read.bind fun _ => .ite ((h.advance _).bind fun _ => .pure _) (.pure _)

theorem consume {type : TokenType} {message : String} : (C source).Steady (consume type message) :=
  read.bind fun _ => .ite (h.advance _) (h.errorAtCurrent _)

/-! ### Expressions -/

section Functions

variable (hr : SteadyCalls C r)

include hr

theorem expression : (C source).Steady (expression r) := h.enter (hr.parsePrecedence _ _)

theorem binary (a : Tree) : (C source).Steady (binary r a) :=
  h.enter (read.bind fun _ => (hr.parsePrecedence _ _).bind fun _ => .pure _)

theorem negatedBinary (a : Tree) : (C source).Steady (negatedBinary r a) :=
  h.enter ((h.advance _).bind fun _ => read.bind fun _ => (h.noteSkipped _).bind fun _ =>
    (hr.parsePrecedence _ _).bind fun _ => .pure _)

theorem logical (a : Tree) : (C source).Steady (logical r a) :=
  h.enter (read.bind fun _ => (hr.parsePrecedence _ _).bind fun _ => nodeLine.bind fun _ => .pure _)

theorem assignment (a : Tree) : (C source).Steady (assignment r a) :=
  h.enter (read.bind fun _ => (hr.parsePrecedence _ _).bind fun _ => .pure _)

omit hr in
theorem postfixOp (a : Tree) : (C source).Steady (postfixOp a) :=
  h.enter (nodeLine.bind fun _ => read.bind fun _ => .pure _)

theorem indexAcc (a : Tree) : (C source).Steady (indexAcc r a) :=
  h.enter ((h.expression hr).bind fun _ => h.consume.bind fun _ => nodeLine.bind fun _ => .pure _)

theorem unary : (C source).Steady (unary r) :=
  h.enter (read.bind fun _ => (hr.parsePrecedence _ _).bind fun _ => .pure _)

omit hr in
theorem identifier : (C source).Steady identifier :=
  h.enter (nodeLine.bind fun _ => previousText.bind fun _ => .pure _)

omit hr in
theorem number : (C source).Steady number :=
  h.enter (read.bind fun _ => .ite (nodeLine.bind fun _ => .pure _) (nodeLine.bind fun _ => .pure _))

omit hr in
theorem literal : (C source).Steady literal := by
  refine h.enter (read.bind fun s => ?_)
  split
  · exact nodeLine.bind fun _ => .pure _
  · exact nodeLine.bind fun _ => .pure _
  · exact nodeLine.bind fun _ => .pure _
  · exact .pure _

omit hr in
theorem scalar : (C source).Steady scalar :=
  h.enter (nodeLine.bind fun _ => scalarName.bind fun _ => .pure _)

/-! ### Arguments -/

theorem argumentHead : (C source).Steady (argumentHead r) :=
  read.bind fun _ => .ite
    ((h.lookahead _ _ (by intros; rfl)).bind fun _ => .ite
      ((h.advance _).bind fun _ => nodeLine.bind fun _ => previousText.bind fun _ => .pure _)
      (h.expression hr))
    (h.expression hr)

theorem argumentParts (a : Tree) : (C source).Steady (argumentParts r a) :=
  h.matchToken.bind fun _ => .ite ((h.expression hr).bind fun _ => .pure _) (.pure _)

theorem argument (type : TokenType) : (C source).Steady (argument r type) := by
  refine (h.argumentHead hr).bind fun _ => nodeLine.bind fun _ => ?_
  refine (h.argumentParts hr _).bind fun p => check.bind fun _ => .ite (.pure _) ?_
  refine h.matchToken.bind fun _ => .ite (.pure _) ?_
  split
  · exact (h.error _).bind fun _ => .pure _
  · exact (h.error _).bind fun _ => .pure _

theorem parseArgs (type : TokenType) : (C source).Steady (parseArgs r type) :=
  h.enter (check.bind fun _ => .ite (.pure _) (hr.argsLoop _ _ _))

theorem container {sigil before after : String} {make : ℤ → Bytes → Tree} :
    (C source).Steady (container r sigil make before after) :=
  h.enter (read.bind fun _ => .ite
    (h.consume.bind fun _ => nodeLine.bind fun _ => (h.parseArgs hr _).bind fun _ =>
      h.consume.bind fun _ => .pure _)
    (nodeLine.bind fun _ => .pure _))

theorem call (a : Tree) : (C source).Steady (call r a) :=
  h.enter (nodeLine.bind fun _ => (h.parseArgs hr _).bind fun _ => h.consume.bind fun _ => .pure _)

/-! ### Groups and object expressions -/

theorem grouping : (C source).Steady (grouping r) :=
  h.enter ((h.expression hr).bind fun _ => check.bind fun _ => .ite
    (nodeLine.bind fun _ => (hr.tupleLoop _ _).bind fun _ => h.consume.bind fun _ => .pure _)
    (h.consume.bind fun _ => read.bind fun _ => .ite
      (.ite ((h.silent _ _ .emptyGroup).bind fun _ => (h.throw _ _).bind fun _ =>
          .ite (nodeLine.bind fun _ => .pure _) (.pure _))
        (.ite (nodeLine.bind fun _ => .pure _) (.pure _)))
      (.pure _)))

theorem objectTarget : (C source).Steady (objectTarget r) := by
  refine Steady.bind (check.bind fun _ => .ite ?_ (.pure _)) fun _ => .ite ?_ (h.expression hr)
  · exact (h.lookahead _ _ (by intros; rfl)).bind fun _ => .pure _
  · exact h.enter ((hr.qualifiedLoop _ _).bind fun _ => nodeLine.bind fun _ => .pure _)

theorem objExprArgs : (C source).Steady (objExprArgs r) :=
  (h.parseArgs hr _).bind fun _ => .ite ((h.error _).bind fun _ => .pure _) (.pure _)

theorem objExprMessage : (C source).Steady (objExprMessage r) :=
  read.bind fun _ => .ite
    ((h.advance _).bind fun _ => nodeLine.bind fun _ => previousText.bind fun _ => .pure _)
    (h.expression hr)

theorem objExprRest : (C source).Steady (objExprRest r) :=
  h.matchToken.bind fun _ => .ite ((h.objExprArgs hr).bind fun _ => .pure _)
    (check.bind fun _ => .ite (.pure _)
      ((h.objExprMessage hr).bind fun _ => h.matchToken.bind fun _ =>
        .ite ((h.objExprArgs hr).bind fun _ => .pure _) (.pure _)))

theorem objExpr : (C source).Steady (objExpr r) :=
  h.enter (nodeLine.bind fun _ => (h.objectTarget hr).bind fun _ => (h.objExprRest hr).bind fun _ =>
    h.consume.bind fun _ => .pure _)

/-! ### Commands and bridges -/

theorem command : (C source).Steady (command r) :=
  h.enter (read.bind fun _ => nodeLine.bind fun _ => read.bind fun _ => .ite (.pure _)
    ((h.expression hr).bind fun _ => .ite
      (h.matchToken.bind fun _ => .ite
        (read.bind fun _ => .ite ((h.noteSkipped _).bind fun _ => .pure _)
          ((h.expression hr).bind fun _ => .pure _))
        (.pure _))
      (.pure _)))

theorem block : (C source).Steady (block r) :=
  h.enter (h.consume.bind fun _ => nodeLine.bind fun _ => (hr.blockLoop _ _).bind fun _ =>
    h.consume.bind fun _ => .pure _)

theorem bridge : (C source).Steady (bridge r) := by
  have htext : (C source).Steady (some <$> Parse.previousText) := previousText.map
  refine h.enter (nodeLine.bind fun _ => previousText.bind fun _ => ?_)
  refine h.matchToken.bind fun _ => .ite_bind htext (.pure _) fun _ => ?_
  refine h.matchToken.bind fun _ => .ite_bind (.pure _) h.matchToken fun _ => ?_
  refine .ite_bind htext (.pure _) fun _ => check.bind fun _ => ?_
  exact .ite_bind (h.enterNested (h.block hr)) (.pure _) fun _ => .pure _

theorem inlinePrefix : (C source).Steady (inlinePrefix r) :=
  h.enter (check.bind fun _ => .ite h.identifier (h.bridge hr))

omit hr in
theorem backtickExpr : (C source).Steady backtickExpr :=
  h.enter (previousText.bind fun _ => nodeLine.bind fun _ => .pure _)

omit hr in
theorem addressExpr : (C source).Steady addressExpr :=
  h.enter (nodeLine.bind fun _ => previousText.bind fun _ => .pure _)

omit hr in
theorem classExpr : (C source).Steady classExpr :=
  h.enter (nodeLine.bind fun _ => previousText.bind fun _ => .pure _)

theorem blockExpr : (C source).Steady (blockExpr r) :=
  h.enter (nodeLine.bind fun _ => (hr.blockLoop _ _).bind fun _ => h.consume.bind fun _ => .pure _)

/-! ### Double-quoted strings -/

theorem parseAlignmentWidth (text : Bytes) : (C source).Steady (parseAlignmentWidth r text) := by
  have hwidth : (C source).Steady (onText text do Parse.advance; Parse.expression r) :=
    h.text _ _ _ ((h.advance _).bind fun _ => h.expression hr)
  refine h.enter ((h.enterNested hwidth).bind fun _ => .ite ?_ (.pure _))
  exact (h.error _).bind fun _ => .pure _

theorem alignment (p : Parts) : (C source).Steady (alignment r p) := by
  have hnone : ∀ message, (C source).Steady (do
      Parse.error message
      return (none : Option (Tree × Parts))) := fun message => (h.error message).bind fun _ => .pure _
  unfold Parse.alignment
  split
  · refine .ite ?_ (.pure _)
    split
    · exact hnone _
    · exact .ite (hnone _) ((h.parseAlignmentWidth hr _).bind fun _ => .ite (.pure _)
        (.ite (hnone _) (.pure _)))
  · exact .pure _

theorem stringVariable (p : Parts) : (C source).Steady (stringVariable r p) := by
  refine (h.alignment hr p).bind fun o => ?_
  split
  · exact .pure _
  · exact .pure _

theorem part (p : Parts) : (C source).Steady (part r p) := by
  have hnone : ∀ message, (C source).Steady (do
      Parse.error message
      return (none : Option Parts)) := fun message => (h.error message).bind fun _ => .pure _
  refine .ite (hnone _) ?_
  split
  · exact .pure _
  · exact .ite (.pure _) (.ite (.pure _) (.ite (hnone _) (.ite (h.stringVariable hr _) (.pure _))))

theorem parseDoubleQuotedString (token : Token) :
    (C source).Steady (parseDoubleQuotedString r token) := by
  refine h.enter (.ite (nodeLine.bind fun _ => .pure _) ((hr.partsLoop _ _).bind fun o => ?_))
  split
  · exact .pure _
  · split
    · exact nodeLine.bind fun _ => .pure _
    · exact .pure _

theorem stringVal : (C source).Steady (stringVal r) :=
  h.enter (read.bind fun _ => .ite (h.parseDoubleQuotedString hr _) (nodeLine.bind fun _ => .pure _))

/-! ### Operator precedence -/

theorem runOpening (opening : Opening) : (C source).Steady (runOpening r opening) :=
  match opening with
  | .grouping => h.grouping hr
  | .blockExpr => h.blockExpr hr
  | .objExpr => h.objExpr hr
  | .unary => h.unary hr
  | .identifier => h.identifier
  | .stringVal => h.stringVal hr
  | .number => h.number
  | .literal => h.literal
  | .scalar => h.scalar
  | .array => h.container hr
  | .hash => h.container hr
  | .backtickExpr => h.backtickExpr
  | .addressExpr => h.addressExpr
  | .classExpr => h.classExpr
  | .command => h.command hr
  | .bridge => h.bridge hr
  | .inlinePrefix => h.inlinePrefix hr

theorem runFollowing (a : Tree) (following : Following) :
    (C source).Steady (runFollowing r a following) :=
  match following with
  | .call => h.call hr a
  | .indexAcc => h.indexAcc hr a
  | .binary => h.binary hr a
  | .negatedBinary => h.negatedBinary hr a
  | .assignment => h.assignment hr a
  | .logical => h.logical hr a
  | .postfixOp => h.postfixOp a

omit h in
theorem juxtapose (a : Tree) : (C source).Steady (juxtapose r a) := by
  unfold Parse.juxtapose
  split
  · exact read.bind fun _ => .ite ((hr.juxtaposeLoop _ _).bind fun _ => .pure _) (.pure _)
  · exact .pure _

theorem parsePrecedence (precedence : ℕ) : (C source).Steady (parsePrecedence r precedence) := by
  refine h.guarded (h.enter ((h.advance _).bind fun _ => read.bind fun s => ?_))
  split
  · exact (h.error _).bind fun _ => .pure _
  · exact (h.runOpening hr _).bind fun _ => (juxtapose hr _).bind fun _ => hr.precedenceLoop _ _ _ _

/-! ### Statements -/

theorem expressionStatement : (C source).Steady (expressionStatement r) :=
  h.enter ((h.expression hr).bind fun _ => h.matchToken.bind fun _ => .ite (.pure _)
    (read.bind fun _ => .ite (.pure _) ((h.error _).bind fun _ => .pure _)))

theorem ifStatement : (C source).Steady (ifStatement r) :=
  h.enter (nodeLine.bind fun _ => h.consume.bind fun _ => (h.expression hr).bind fun _ =>
    h.consume.bind fun _ => (hr.statement _).bind fun _ => h.matchToken.bind fun _ =>
      .ite_bind (hr.statement _) (.pure _) fun _ => .pure _)

theorem whileStatement : (C source).Steady (whileStatement r) := by
  refine h.enter (nodeLine.bind fun _ => h.matchToken.bind fun _ =>
    .ite_bind scalarName.map (.pure _) fun assigned => ?_)
  refine h.consume.bind fun _ => (h.expression hr).bind fun _ => h.consume.bind fun _ =>
    (h.block hr).bind fun _ => ?_
  split
  · exact .pure _
  · exact .pure _

theorem forStatement : (C source).Steady (forStatement r) :=
  h.enter (nodeLine.bind fun _ => h.consume.bind fun _ => (hr.forLoop _ _ _).bind fun _ =>
    h.consume.bind fun _ => check.bind fun _ => .ite_bind (.pure _) (h.expression hr) fun _ =>
      h.consume.bind fun _ => (hr.forLoop _ _ _).bind fun _ => h.consume.bind fun _ =>
        (hr.statement _).bind fun _ => .pure _)

omit hr in
theorem foreachVariables : (C source).Steady foreachVariables :=
  read.bind fun _ => .ite
    ((h.advance _).bind fun _ => scalarName.bind fun _ => h.matchToken.bind fun _ => .ite
      (read.bind fun _ => .ite ((h.advance _).bind fun _ => scalarName.bind fun _ => .pure _)
        ((h.error _).bind fun _ => .pure _))
      (.pure _))
    (.pure _)

theorem foreachStatement : (C source).Steady (foreachStatement r) :=
  h.enter (nodeLine.bind fun _ => h.foreachVariables.bind fun _ => h.consume.bind fun _ =>
    (h.expression hr).bind fun _ => h.consume.bind fun _ => (h.block hr).bind fun _ => .pure _)

theorem tryStatement : (C source).Steady (tryStatement r) :=
  h.enter (nodeLine.bind fun _ => (h.block hr).bind fun _ => h.matchToken.bind fun _ => .ite
    ((h.advance _).bind fun _ => read.bind fun _ => (h.noteSkipped _).bind fun _ =>
      scalarName.bind fun _ => (h.block hr).bind fun _ => .pure _)
    (.pure _))

theorem statement : (C source).Steady (statement r) :=
  h.guarded (h.enter (h.matchToken.bind fun _ => .ite (nodeLine.bind fun _ => .pure _)
    (h.matchToken.bind fun _ => .ite (h.ifStatement hr)
      (h.matchToken.bind fun _ => .ite (h.whileStatement hr)
        (h.matchToken.bind fun _ => .ite (h.forStatement hr)
          (h.matchToken.bind fun _ => .ite (h.foreachStatement hr)
            (h.matchToken.bind fun _ => .ite (h.tryStatement hr)
              (check.bind fun _ => .ite (h.block hr) (h.expressionStatement hr)))))))))

/-! ### Declarations -/

omit hr in
theorem addPart (target part : Bytes) : (C source).Steady (addPart target part) :=
  .ite (.pure _) ((h.noteSkipped _).bind fun _ => .pure _)

theorem importTarget : (C source).Steady (importTarget r) :=
  read.bind fun _ => .ite
    ((h.advance _).bind fun _ => previousText.bind fun _ => (h.addPart _ _).bind fun _ =>
      hr.importLoop _ _)
    (.pure _)

omit hr in
theorem importPath : (C source).Steady importPath :=
  h.matchToken.bind fun _ => .ite
    (h.consume.bind fun _ => read.bind fun _ => .ite
      ((h.advance _).bind fun _ => previousText.bind fun _ => .pure _)
      ((h.noteSkipped _).bind fun _ => .pure _))
    (.pure _)

theorem importStatement : (C source).Steady (importStatement r) :=
  h.enter (nodeLine.bind fun _ => (h.importTarget hr).bind fun _ => h.importPath.bind fun _ =>
    h.matchToken.bind fun _ => .pure _)

/-- A declaration that begins with a token and what may come after it. -/
theorem ahead {type : TokenType} {restore : Lexer → Lexer → Lexer}
    (hrestore : ∀ saved lexer, (restore saved lexer).current = saved.current) {P : Token → Prop}
    [DecidablePred P] {g : ParserM Tree} (hg : (C source).Steady g) :
    (C source).Steady (Parse.check type >>= fun b =>
      if b then (Parse.lookahead restore >>= fun next =>
        if P next then (Parse.advance >>= fun _ => Parse.bridge r) else g)
      else g) :=
  check.bind fun _ => .ite
    ((h.lookahead _ _ hrestore).bind fun _ => .ite ((h.advance _).bind fun _ => h.bridge hr) hg) hg

theorem declaration : (C source).Steady (declaration r) :=
  h.enter (h.matchToken.bind fun _ => .ite (h.bridge hr)
    (h.ahead hr (by intros; rfl) (h.matchToken.bind fun _ => .ite (h.importStatement hr)
      (h.ahead hr (by intros; rfl) (hr.statement _)))))

/-! ### Loops -/

theorem precedenceStep (precedence rounds : ℕ) (a : Tree) :
    (C source).Steady (precedenceStep r precedence rounds a) := by
  refine read.bind fun _ => .ite ((h.advance _).bind fun _ => read.bind fun s => ?_) (.pure _)
  split
  · exact (h.runFollowing hr _ _).bind fun _ => (h.silent _ _ (.rounds _)).bind fun _ =>
      hr.precedenceLoop _ _ _ _
  · exact (h.noteSkipped _).bind fun _ => hr.precedenceLoop _ _ _ _

theorem juxtaposeStep (b : Bytes) : (C source).Steady (juxtaposeStep r b) :=
  read.bind fun _ => .ite
    ((h.advance _).bind fun _ => previousText.bind fun _ => hr.juxtaposeLoop _ _) (.pure _)

theorem tupleStep (as : List Tree) : (C source).Steady (tupleStep r as) :=
  check.bind fun _ => .ite
    ((h.iteration ((h.advance _).bind fun _ => h.expression hr)).bind fun _ => hr.tupleLoop _ _)
    (.pure _)

theorem blockStep (as : List Tree) : (C source).Steady (blockStep r as) :=
  read.bind fun _ => .ite (.pure _)
    ((h.iteration (hr.declaration _)).bind fun _ => hr.blockLoop _ _)

theorem scriptStep (as : List Tree) : (C source).Steady (scriptStep r as) :=
  h.matchToken.bind fun _ => .ite (.pure _) (read.bind fun _ => .ite (.pure _)
    ((h.iteration (hr.declaration _)).bind fun _ => hr.scriptLoop _ _))

theorem forStep (type : TokenType) (as : List Tree) : (C source).Steady (forStep r type as) :=
  read.bind fun _ => .ite (.pure _)
    ((h.iteration ((h.expression hr).bind fun _ => h.matchToken.bind fun _ => .pure _)).bind fun _ =>
      .ite (hr.forLoop _ _ _) (.pure _))

theorem argsStep (type : TokenType) (as : List Tree) : (C source).Steady (argsStep r type as) :=
  check.bind fun _ => .ite (.pure _)
    ((h.iteration (h.argument hr type)).bind fun _ => read.bind fun _ =>
      .ite (hr.argsLoop _ _ _) (.pure _))

theorem qualifiedStep (name : Bytes) : (C source).Steady (qualifiedStep r name) := by
  refine Steady.bind (h.iteration (h.consume.bind fun _ => previousText.bind fun _ => ?_))
    fun _ => .ite (hr.qualifiedLoop _ _) (.pure _)
  exact .ite ((h.error _).bind fun _ => .pure _) (h.matchToken.bind fun _ => .pure _)

theorem importStep (target : Bytes) : (C source).Steady (importStep r target) := by
  refine check.bind fun _ => .ite (Steady.bind (h.iteration ?_) fun _ => hr.importLoop _ _) (.pure _)
  exact (h.advance _).bind fun _ => (h.addPart _ _).bind fun _ => read.bind fun _ => .ite
    ((h.advance _).bind fun _ => previousText.bind fun _ => h.addPart _ _) (.pure _)

theorem partsStep (p : Parts) : (C source).Steady (partsStep r p) := by
  refine .ite (.pure _) ((h.part hr p).bind fun o => ?_)
  split
  · exact .pure _
  · exact hr.partsLoop _ _

theorem nextLevel : SteadyCalls C (nextLevel r) where
  parsePrecedence _ := h.parsePrecedence hr
  statement _ := h.statement hr
  declaration _ := h.declaration hr
  precedenceLoop _ := h.precedenceStep hr
  juxtaposeLoop _ := h.juxtaposeStep hr
  tupleLoop _ := h.tupleStep hr
  blockLoop _ := h.blockStep hr
  scriptLoop _ := h.scriptStep hr
  forLoop _ := h.forStep hr
  argsLoop _ := h.argsStep hr
  qualifiedLoop _ := h.qualifiedStep hr
  importLoop _ := h.importStep hr
  partsLoop _ := h.partsStep hr

theorem parseScript : (C source).Steady (parseScript r) :=
  h.enter ((h.advance _).bind fun _ => h.matchToken.bind fun _ => .ite (.pure _)
    (nodeLine.bind fun _ => (hr.scriptLoop _ _).bind fun _ => .pure _))

end Functions

/-- Every level is steady. -/
theorem steady_calls (n : ℕ) : SteadyCalls C (calls n) := by
  induction n with
  | zero =>
    exact
      { parsePrecedence := fun _ _ => h.throw _ _
        statement := fun _ => h.throw _ _
        declaration := fun _ => h.throw _ _
        precedenceLoop := fun _ _ _ _ => h.throw _ _
        juxtaposeLoop := fun _ _ => h.throw _ _
        tupleLoop := fun _ _ => h.throw _ _
        blockLoop := fun _ _ => h.throw _ _
        scriptLoop := fun _ _ => h.throw _ _
        forLoop := fun _ _ _ => h.throw _ _
        argsLoop := fun _ _ _ => h.throw _ _
        qualifiedLoop := fun _ _ => h.throw _ _
        importLoop := fun _ _ => h.throw _ _
        partsLoop := fun _ _ => h.throw _ _ }
  | succ n ih => exact h.nextLevel ih

end Primitives

end Slp.Parse
