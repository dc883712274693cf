/-
Building trees with numbered nodes.

Numbers are handed out one after the other.  A node takes its number when it is made, so after its
children, which have smaller ones.
-/
import TreeCompiler.Program.Basic

namespace TreeCompiler.Program

/-- Computations that hand out node numbers; the state is the next number. -/
abbrev Numbered := StateM NodeId

namespace Numbered

/-- Take the next number. -/
def nextId : Numbered NodeId := do
  let id ← get
  set (id + 1)
  return id

/-! ### Expressions -/

def int (value : Int64) : Numbered Expr := return .int (← nextId) value

def double (value : Double) : Numbered Expr := return .double (← nextId) value

def string (raw : String) : Numbered Expr := return .string (← nextId) raw

def ident (name : String) : Numbered Expr := return .ident (← nextId) name

def call (callee : String) (args : List Expr) : Numbered Expr :=
  return .call (← nextId) callee args

def binary (op : BinOp) (left right : Expr) : Numbered Expr :=
  return .binary (← nextId) op left right

def assign (target : String) (value : Expr) : Numbered Expr :=
  return .assign (← nextId) target value

def ifElse (cond : Expr) (thenBlock elseBlock : Block) : Numbered Expr :=
  return .ifElse (← nextId) cond thenBlock elseBlock

def countingLoop (start limit : Expr) (body : Block) : Numbered Expr :=
  return .loop (← nextId) start limit body

/-! ### Statements, blocks and parameters -/

def block (stmts : List Stmt) : Numbered Block := return .mk (← nextId) stmts

def exprStmt (value : Expr) : Numbered Stmt := return .expr (← nextId) value

def ret (value : Expr) : Numbered Stmt := return .ret (← nextId) (some value)

def retVoid : Numbered Stmt := return .ret (← nextId) none

def var (ty name : String) (init : Expr) : Numbered Stmt :=
  return .var (← nextId) ty name (some init)

def varUninit (ty name : String) : Numbered Stmt := return .var (← nextId) ty name none

def param (ty name : String) : Numbered Param := return ⟨← nextId, ty, name⟩

def func (retTy : Option String) (name : String) (params : List Param) (body : Block) :
    Numbered Stmt :=
  return .fn (← nextId) retTy name params body

def nested (body : Block) : Numbered Stmt := return .block (← nextId) body

end Numbered

end TreeCompiler.Program
