/-
What a function declaration means, said on the tree.

Expressions are evaluated from left to right in a store.  A name stands for a cell, and a cell holds
a value or nothing yet.  `T x = e` makes a new empty cell for `x` and then assigns to it; without
`= e` the name has to be there and is only mentioned.  Blocks share the scope around them.  An arm
of a conditional runs in a copy of the scope: the names it declares are gone after it, what it
assigns stays.  A return ends the function from anywhere.

The meaning is undefined where a value is needed and there is none (an empty cell, a conditional),
where a division is undefined, and where an operator does not fit its operands.  Loops, calls and
functions inside a function are left out: evaluation that meets one is undefined too.
-/
import TreeCompiler.Lowering.Literal
import TreeCompiler.Proofs.Lowering.Declarations
import TreeCompiler.Proofs.Semantics.Machine

namespace TreeCompiler.Semantics

open Program (Expr Stmt Block BinOp Param Declaration)

/-! ### Stores -/

/-- What a function has in its variables. -/
structure Store where
  /-- The cell of each name, the latest declaration first. -/
  scope : List (String × Nat) := []
  cells : List (Option Val) := []
  deriving DecidableEq, Repr

/-- How the evaluation of a part of a function ends. -/
inductive Result (α : Type) where
  | undefined
  /-- The function is left with a value. -/
  | returned (v : Val)
  /-- Evaluation goes on. -/
  | normal (a : α) (σ : Store)
  deriving DecidableEq, Repr

/-- Evaluations: they change the store and may end the function. -/
def Eval (α : Type) := Store → Result α

namespace Eval

variable {α β : Type}

def andThen (x : Eval α) (k : α → Eval β) : Eval β := fun σ =>
  match x σ with
  | .undefined => .undefined
  | .returned v => .returned v
  | .normal a σ => k a σ

instance : Monad Eval where
  pure a := fun σ => .normal a σ
  bind := andThen

theorem bind_apply (x : Eval α) (k : α → Eval β) (σ : Store) :
    (x >>= k) σ =
      match x σ with
      | .undefined => .undefined
      | .returned v => .returned v
      | .normal a σ => k a σ :=
  rfl

def undefined : Eval α := fun _ => .undefined

/-- Leave the function with a value. -/
def leave (v : Val) : Eval α := fun _ => .returned v

/-- The value of a partial operation. -/
def ofOption : Option α → Eval α
  | some a => pure a
  | none => undefined

/-- The cell that a name stands for. -/
def cell (name : String) : Eval Nat := fun σ => ofOption (σ.scope.lookup name) σ

theorem cell_bind (name : String) (k : Nat → Eval β) (σ : Store) :
    (cell name >>= k) σ =
      match σ.scope.lookup name with
      | some i => k i σ
      | none => .undefined := by
  rw [bind_apply, cell]
  cases σ.scope.lookup name <;> rfl

/-- What a cell holds, if anything. -/
def content (i : Nat) : Eval (Option Val) := fun σ => .normal (σ.cells[i]?.join) σ

/-- Make a new empty cell for a name. -/
def declare (name : String) : Eval Nat := fun σ =>
  .normal σ.cells.length
    { scope := (name, σ.cells.length) :: σ.scope, cells := σ.cells ++ [none] }

def write (i : Nat) (v : Val) : Eval Unit := fun σ =>
  .normal () { σ with cells := σ.cells.set i (some v) }

/-- The value of a part that has to have one. -/
def needed (x : Eval (Option Val)) : Eval Val := do ofOption (← x)

/-- Run an arm of a conditional in a copy of the scope. -/
def inCopy (x : Eval α) : Eval Unit := fun σ =>
  match x σ with
  | .undefined => .undefined
  | .returned v => .returned v
  | .normal _ σ' => .normal () { σ' with scope := σ.scope }

end Eval

/-! ### Constructs -/

section Constructs

variable (p : Primitives)

/-- The operators: arithmetic and order on doubles, division on integers. -/
def applyOp : BinOp → Val → Val → Option Val
  | .add, .float x, .float y => some (.float (p.add x y))
  | .sub, .float x, .float y => some (.float (p.sub x y))
  | .mul, .float x, .float y => some (.float (p.mul x y))
  | .div, .int a, .int b => (divide a b).map .int
  | .lt, .float x, .float y => some (.bool (p.lt x y))
  | .gt, .float x, .float y => some (.bool (p.gt x y))
  | _, _, _ => none

def evalIdent (name : String) : Eval (Option Val) := do
  Eval.content (← Eval.cell name)

def evalBinary (op : BinOp) (left right : Eval (Option Val)) : Eval Val := do
  let a ← left.needed
  let b ← right.needed
  Eval.ofOption (applyOp p op a b)

/-- Evaluate something and put its value into a cell. -/
def assignTo (i : Nat) (value : Eval (Option Val)) : Eval Val := do
  let v ← value.needed
  Eval.write i v
  return v

/-- The target comes before the value.  An assignment has no value that could be used further. -/
def evalAssign (target : String) (value : Eval (Option Val)) : Eval Val := do
  let i ← Eval.cell target
  let _ ← assignTo i value
  return .void

def evalIf (cond thenBody elseBody : Eval (Option Val)) : Eval Unit := do
  match ← cond.needed with
  | .bool true => thenBody.inCopy
  | .bool false => elseBody.inCopy
  | _ => Eval.undefined

def evalReturn : Option (Eval (Option Val)) → Eval Val
  | none => Eval.leave .void
  | some value => do Eval.leave (← value.needed)

/-- The variable is there, and empty, when its first value is evaluated. -/
def evalVar (name : String) (init : Eval (Option Val)) : Eval Val := do
  let i ← Eval.declare name
  assignTo i init

/-! ### The walk -/

mutual

def evalExpr : Expr → Eval (Option Val)
  | .int _ n => return some (.int n)
  | .double _ x => return some (.float x)
  | .string _ raw => return some (.str (Lowering.literalText raw))
  | .ident _ name => evalIdent name
  | .binary _ op left right => return some (← evalBinary p op (evalExpr left) (evalExpr right))
  | .assign _ target value => return some (← evalAssign target (evalExpr value))
  | .ifElse _ cond thenBlock elseBlock => do
    evalIf (evalExpr cond) (evalBlock thenBlock) (evalBlock elseBlock)
    return none
  | .block _ body => evalBlock body
  | .call .. | .loop .. => Eval.undefined

def evalStmt : Stmt → Eval (Option Val)
  | .expr _ value => evalExpr value
  | .ret _ none => return some (← evalReturn none)
  | .ret _ (some value) => return some (← evalReturn (some (evalExpr value)))
  | .var _ _ name none => evalIdent name
  | .var _ _ name (some init) => return some (← evalVar name (evalExpr init))
  | .block _ body => evalBlock body
  | .fn .. => Eval.undefined

/-- The value of a block is that of its last statement. -/
def evalBlock : Block → Eval (Option Val)
  | .mk _ stmts => evalStmts none stmts

def evalStmts (last : Option Val) : List Stmt → Eval (Option Val)
  | [] => return last
  | stmt :: stmts => do evalStmts (← evalStmt stmt) stmts

end

end Constructs

/-! ### Functions -/

/-- The store in which the body of a function starts: one cell for each argument. -/
def Store.ofArgs (params : List Param) (args : List Val) : Store where
  scope := (params.zipIdx.map fun (p, i) => (p.name, i)).reverse
  cells := args.map some

/-- What a declared function returns.  A function without a return value may come to its end. -/
def applyFunction (p : Primitives) (d : Declaration) (args : List Val) : Option Val :=
  match evalBlock p d.body (.ofArgs d.params args) with
  | .returned v => some v
  | .normal .. => if (Lowering.returnType d.retTy).isVoid then some .void else none
  | .undefined => none

end TreeCompiler.Semantics
