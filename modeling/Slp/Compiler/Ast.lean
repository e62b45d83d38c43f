import Mathlib.Data.Rat.Defs
import Slp.Object.Basic

/-!
# Abstract syntax

The syntax trees the parser builds, as far as the compiler reads them.  A child that the parser
may leave `NULL` is an `Option`; the others are set in every tree it returns without an error.
Line numbers, which end in the line table of a chunk only, are left out.
-/

namespace Slp

/-- The token types the compiler asks for; `other` is any other one. -/
inductive TokenType where
  | plus | minus | star | slash | percent | exp | dot | lowerX
  | eq | ne | less | greater | le | ge | spaceship | eqi | neqi
  | ampersand | pipe | caret | lshift | rshift | land | lor
  | binaryPredicateBridge | unaryPredicateBridge
  | inc | dec | bang
  | equal | plusEqual | minusEqual | timesEqual | divEqual | catEqual | andEqual | orEqual
  | xorEqual | lshiftEqual | rshiftEqual | expEqual
  | other
  deriving DecidableEq, Repr

/-- An operator token with its text. -/
structure Token where
  type : TokenType
  text : Bytes := []
  deriving DecidableEq, Repr

/-- `SlpASTNode`.  `string` is also the node of a parsed literal and `arg` that of a key/value
pair, which are compiled alike. -/
inductive Node where
  | script (statements : List Node)
  | block (statements : List Node)
  | boolean (b : Bool)
  | null
  | number (isDouble : Bool) (v : ℚ)
  | long (v : ℤ)
  | string (s : Bytes)
  | align (width value : Node)
  | scalar (name : Bytes)
  | array (name : Bytes)
  | hashtable (name : Bytes)
  | identifier (name : Bytes)
  | binop (op : Token) (negate : Bool) (left right : Node)
  /-- `punned` is what the union member `string_val` of the operand reads when the operand has no
  string of its own. -/
  | unaryop (op : Token) (operand : Node) (punned : Option Bytes)
  | assignment (op : TokenType) (left right : Node)
  | ifStmt (condition thenBranch : Node) (elseBranch : Option Node)
  | whileStmt (condition body : Node)
  | forStmt (initializer : List Node) (condition : Option Node) (increment : List Node)
      (body : Node)
  | foreachStmt (index : Option Bytes) (value : Bytes) (generator body : Node)
  | assignLoop (value : Bytes) (generator body : Node)
  | call (target : Node) (args : List Node)
  | arg (name : Option Node) (value : Node)
  | index (container element : Node)
  | objExpr (target : Node) (message : Option Node) (args : List Node)
  | envBridge (keyword identifier : Option Bytes) (body : Node)
  | tryCatch (body : Node) (value : Option Bytes) (handler : Option Node)
  | returnStmt (value : Option Node)
  | throwStmt (value : Option Node)
  | assertStmt (value message : Option Node)
  | yieldStmt (value : Option Node)
  | breakStmt
  | continueStmt
  | halt
  | done
  | callcc (value : Option Node)
  | localStmt (value : Option Node)
  | thisStmt (value : Option Node)
  | importStmt (target path : Option Bytes)
  | backtick (s : Bytes)
  | classLiteral (s : Bytes)
  | address (s : Bytes)
  | lvalueTuple (elements : List Node)
  | nop

namespace Node

/-- `as.string_val`. -/
def stringVal? : Node → Option Bytes → Option Bytes
  | .string s, _ | .scalar s, _ | .array s, _ | .hashtable s, _ | .identifier s, _
  | .backtick s, _ | .classLiteral s, _ | .address s, _ => some s
  | _, punned => punned

/-- `snprintf` into a buffer of 256 bytes. -/
def nameBuf (s : Bytes) : Bytes := s.take 255

/-- The name of a variable node as the assignment and the argument code build it: a lone sigil is
a name by itself. -/
def variableName? : Node → Option Bytes
  | .scalar s => some (nameBuf (ascii "$" ++ s))
  | .array s => some (nameBuf (if s = ascii "@" then s else ascii "@" ++ s))
  | .hashtable s => some (nameBuf (if s = ascii "%" then s else ascii "%" ++ s))
  | _ => none

/-- The name an assignment stores to: a variable, or an identifier as it stands. -/
def assignedName? : Node → Option Bytes
  | .identifier s => some (nameBuf s)
  | n => n.variableName?

/-- The name that `++` and `--` load and store.  A lone sigil is not special here. -/
def stepName? (operand : Node) (punned : Option Bytes) : Option Bytes :=
  (operand.stringVal? punned).map fun s =>
    match operand with
    | .scalar _ => nameBuf (ascii "$" ++ s)
    | .array _ => nameBuf (ascii "@" ++ s)
    | .hashtable _ => nameBuf (ascii "%" ++ s)
    | _ => nameBuf s

/-- `index_autovivify_kind`. -/
def autovivifyKind : Node → UInt8
  | .index container _ => container.autovivifyKind
  | .array _ => 1
  | .hashtable _ => 2
  | _ => 0

/-- The binary operators that make a predicate. -/
def isPredicateOp : TokenType → Bool
  | .land | .lor | .eq | .ne | .less | .greater | .le | .ge | .eqi | .neqi
  | .binaryPredicateBridge => true
  | _ => false

/-- `assert_condition_is_predicate`. -/
def assertConditionIsPredicate : Option Node → Bool
  | some (.binop op _ _ _) => isPredicateOp op.type
  | _ => true

/-- `condition_is_explicit_predicate`. -/
def conditionIsExplicitPredicate : Option Node → Bool
  | some (.unaryop op _ _) => op.type = .unaryPredicateBridge
  | some (.binop op _ _ _) => isPredicateOp op.type
  | _ => false

/-- `call_argument_value`. -/
def argumentValue : Node → Node
  | .arg _ value => value
  | n => n

/-- The name of a call target that is an identifier. -/
def identifier? : Node → Option Bytes
  | .identifier s => some s
  | _ => none

/-- Whether a statement list leaves the operand stack alone after this statement. -/
def leavesNothing : Node → Bool
  | .envBridge .. | .ifStmt .. | .whileStmt .. | .forStmt .. | .foreachStmt .. | .assertStmt ..
  | .tryCatch .. | .returnStmt .. | .throwStmt .. | .yieldStmt .. | .breakStmt
  | .continueStmt | .nop => true
  | _ => false

end Node

end Slp
