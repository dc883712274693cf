/-
The nodes of a program in the order in which a reader meets them.
-/
import TreeCompiler.Program.Basic

namespace TreeCompiler.Program

/-- What the outline says about one node. -/
inductive Entry where
  | block (id : NodeId) (size : Nat) (hasTopLevelReturn : Bool)
  | stmt (id : NodeId) (kind : String) (isReturn : Bool)
  | expr (id : NodeId) (kind : String) (bindingKey : Option String)
  | op (symbol : String)
  deriving DecidableEq, Repr

def Expr.entry (e : Expr) : Entry := .expr e.id e.kindName e.bindingKey

def Stmt.entry (s : Stmt) : Entry := .stmt s.id s.kindName s.isReturn

def Block.entry (b : Block) : Entry := .block b.id b.stmts.length b.hasTopLevelReturn

mutual

/-- A node before its children, and the children from left to right. -/
def Expr.outline : Expr → List Entry
  | .int id v => [(Expr.int id v).entry]
  | .double id v => [(Expr.double id v).entry]
  | .string id raw => [(Expr.string id raw).entry]
  | .ident id name => [(Expr.ident id name).entry]
  | .call id callee args => (Expr.call id callee args).entry :: outlineExprs args
  | .binary id op left right =>
    (Expr.binary id op left right).entry :: .op op.symbol :: left.outline ++ right.outline
  | .assign id target value => (Expr.assign id target value).entry :: value.outline
  | .ifElse id cond thenBlock elseBlock =>
    (Expr.ifElse id cond thenBlock elseBlock).entry ::
      cond.outline ++ thenBlock.outline ++ elseBlock.outline
  | .loop id start limit body =>
    (Expr.loop id start limit body).entry :: start.outline ++ limit.outline ++ body.outline
  | .block id body => (Expr.block id body).entry :: body.outline

def outlineExprs : List Expr → List Entry
  | [] => []
  | e :: es => e.outline ++ outlineExprs es

def Stmt.outline : Stmt → List Entry
  | .expr id value => (Stmt.expr id value).entry :: value.outline
  | .ret id none => [(Stmt.ret id none).entry]
  | .ret id (some value) => (Stmt.ret id (some value)).entry :: value.outline
  | .var id ty name none => [(Stmt.var id ty name none).entry]
  | .var id ty name (some init) => (Stmt.var id ty name (some init)).entry :: init.outline
  | .fn id retTy name params body => (Stmt.fn id retTy name params body).entry :: body.outline
  | .block id body => (Stmt.block id body).entry :: body.outline

def Block.outline : Block → List Entry
  | .mk id stmts => (Block.mk id stmts).entry :: outlineStmts stmts

def outlineStmts : List Stmt → List Entry
  | [] => []
  | s :: ss => s.outline ++ outlineStmts ss

end

end TreeCompiler.Program
