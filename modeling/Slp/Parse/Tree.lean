import Slp.Parse.Lexer

/-!
# The trees of the parser

`SlpASTNode` with everything the parser writes into it.  A value of `Tree` is a pointer to a node,
and `missing` is the pointer `NULL`, which the parser leaves in place of what it could not parse.
-/

namespace Slp.Parse

/-- The commands that `command` makes a node of. -/
inductive Command where
  | return | throw | yield | assert | callcc | halt | done | local | this | break | continue
  /-- No command token: a node that does nothing. -/
  | nop
  deriving DecidableEq, Repr

/-- A node, with its line first.  A number is kept as the text it is read from. -/
inductive Tree where
  | missing
  | script (line : ℤ) (statements : List Tree)
  | block (line : ℤ) (statements : List Tree)
  | boolean (line : ℤ) (b : Bool)
  | null (line : ℤ)
  | long (line : ℤ) (lexeme : Bytes)
  | number (line : ℤ) (isDouble : Bool) (lexeme : Bytes)
  | string (line : ℤ) (s : Bytes)
  | align (line : ℤ) (width value : Tree)
  | scalar (line : ℤ) (name : Bytes)
  | array (line : ℤ) (name : Bytes)
  | hashtable (line : ℤ) (name : Bytes)
  | identifier (line : ℤ) (name : Bytes)
  | classLiteral (line : ℤ) (name : Bytes)
  | backtick (line : ℤ) (s : Bytes)
  | address (line : ℤ) (name : Bytes)
  | call (line : ℤ) (target : Tree) (args : List Tree)
  | arg (line : ℤ) (name value : Tree)
  | assignment (line : ℤ) (op : Token) (left right : Tree)
  | binop (line : ℤ) (op : Token) (negate : Bool) (left right : Tree)
  | unaryop (line : ℤ) (op : Token) (operand : Tree) (isPostfix : Bool)
  | ifStmt (line : ℤ) (condition thenBranch elseBranch : Tree)
  | whileStmt (line : ℤ) (condition body : Tree)
  | forStmt (line : ℤ) (initializer : List Tree) (condition : Tree) (increment : List Tree)
      (body : Tree)
  | foreachStmt (line : ℤ) (index : Option Bytes) (value : Bytes) (generator body : Tree)
  | assignLoop (line : ℤ) (value : Bytes) (generator body : Tree)
  | index (line : ℤ) (container element : Tree)
  | objExpr (line : ℤ) (target message : Tree) (args : List Tree)
  | tryCatch (line : ℤ) (body : Tree) (value : Option Bytes) (handler : Tree)
  | command (line : ℤ) (kind : Command) (value message : Tree)
  | envBridge (line : ℤ) (keyword identifier string : Option Bytes) (body : Tree)
  | importStmt (line : ℤ) (target path : Option Bytes)
  | lvalueTuple (line : ℤ) (elements : List Tree)
  | nop (line : ℤ)
  deriving Repr, Inhabited

namespace Tree

def isMissing : Tree → Bool
  | missing => true
  | _ => false

def line : Tree → ℤ
  | missing => 0
  | script l _ | block l _ | boolean l _ | null l | long l _ | number l _ _ | string l _
  | align l _ _ | scalar l _ | array l _ | hashtable l _ | identifier l _ | classLiteral l _
  | backtick l _ | address l _ | call l _ _ | arg l _ _ | assignment l _ _ _ | binop l _ _ _ _
  | unaryop l _ _ _ | ifStmt l _ _ _ | whileStmt l _ _ | forStmt l _ _ _ _ | foreachStmt l _ _ _ _
  | assignLoop l _ _ _ | index l _ _ | objExpr l _ _ _ | tryCatch l _ _ _ | command l _ _ _
  | envBridge l _ _ _ _ | importStmt l _ _ | lvalueTuple l _ | nop l => l

/-- The nodes that a parenthesis before an assignment makes a tuple of. -/
def isVariable : Tree → Bool
  | scalar .. | array .. | hashtable .. | identifier .. => true
  | _ => false

/-- The name an argument error mentions. -/
def argumentName? : Tree → Option Bytes
  | scalar _ s | array _ s | hashtable _ s | identifier _ s | string _ s => some s
  | _ => none

end Tree

end Slp.Parse
