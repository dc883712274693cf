/-
Program trees.

A program is a block of statements.  Every expression, statement, block and parameter carries a
number that tells it apart from the others; nothing but the record of declarations looks at it.
-/
import TreeCompiler.Decimal.Double

namespace TreeCompiler.Program

/-- The number of a node. -/
abbrev NodeId := UInt32

/-- The binary operators that can be written. -/
inductive BinOp where
  | add | sub | mul | div | lt | gt | le | ge | eq | ne
  deriving DecidableEq, Repr

/-- How an operator is written in a program. -/
def BinOp.symbol : BinOp → String
  | .add => "+"
  | .sub => "-"
  | .mul => "*"
  | .div => "/"
  | .lt => "<"
  | .gt => ">"
  | .le => "<="
  | .ge => ">="
  | .eq => "=="
  | .ne => "!="

/-- A parameter of a function declaration. -/
structure Param where
  id : NodeId
  ty : String
  name : String
  deriving DecidableEq, Repr

mutual

/-- An expression. -/
inductive Expr where
  | int (id : NodeId) (value : Int64)
  | double (id : NodeId) (value : Double)
  /-- A string literal as it was written, delimiters included. -/
  | string (id : NodeId) (raw : String)
  | ident (id : NodeId) (name : String)
  | call (id : NodeId) (callee : String) (args : List Expr)
  | binary (id : NodeId) (op : BinOp) (left right : Expr)
  | assign (id : NodeId) (target : String) (value : Expr)
  | ifElse (id : NodeId) (cond : Expr) (thenBlock elseBlock : Block)
  /-- Runs `body` with a counter that goes from `start` up to and including `limit`. -/
  | loop (id : NodeId) (start limit : Expr) (body : Block)
  | block (id : NodeId) (body : Block)

/-- A statement. -/
inductive Stmt where
  | expr (id : NodeId) (value : Expr)
  | ret (id : NodeId) (value : Option Expr)
  | var (id : NodeId) (ty name : String) (init : Option Expr)
  | fn (id : NodeId) (retTy : Option String) (name : String) (params : List Param) (body : Block)
  | block (id : NodeId) (body : Block)

/-- A sequence of statements. -/
inductive Block where
  | mk (id : NodeId) (stmts : List Stmt)

end

namespace Expr

def id : Expr → NodeId
  | int id _ | double id _ | string id _ | ident id _ | call id _ _ | binary id _ _ _
  | assign id _ _ | ifElse id _ _ _ | loop id _ _ _ | block id _ => id

/-- What sort of expression this is, in words. -/
def kindName : Expr → String
  | int .. => "integer literal"
  | double .. => "double literal"
  | string .. => "string literal"
  | ident .. => "identifier"
  | call .. => "method call"
  | binary .. => "binary operator"
  | assign .. => "assignment"
  | ifElse .. => "conditional"
  | loop .. => "loop"
  | block .. => "block"

/-- The name under which an expression is looked up in a scope. -/
def bindingKey : Expr → Option String
  | ident _ name => some name
  | _ => none

end Expr

namespace Stmt

def id : Stmt → NodeId
  | expr id _ | ret id _ | var id _ _ _ | fn id _ _ _ _ | block id _ => id

/-- What sort of statement this is, in words. -/
def kindName : Stmt → String
  | expr .. => "expression statement"
  | ret .. => "return"
  | var .. => "variable declaration"
  | fn .. => "function declaration"
  | block .. => "block"

def isReturn : Stmt → Bool
  | ret .. => true
  | _ => false

end Stmt

namespace Block

def id : Block → NodeId
  | mk id _ => id

def stmts : Block → List Stmt
  | mk _ stmts => stmts

/-- Whether one of the statements is itself a return.  Returns inside nested blocks and branches do
not count. -/
def hasTopLevelReturn (b : Block) : Bool :=
  b.stmts.any Stmt.isReturn

end Block

end TreeCompiler.Program
