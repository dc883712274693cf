/-
Lowering of trees.

A tree is walked from left to right, and what it computes is added at the cursor of the innermost
scope.  A node may have a value or none.  Neither a conditional nor a loop opens a block where
control meets again: the scope around keeps its cursor, so what follows is added to the block that
has just been ended, and checking the module reports that.

Each construct is a combination of the steps its parts take.  The walk itself comes last and only
says which construct a node is.
-/
import TreeCompiler.Lowering.Literal
import TreeCompiler.Lowering.State

namespace TreeCompiler.Lowering

open IR (FuncId BlockId Ty Value)
open Program (Expr Stmt Block BinOp Param NodeId)

/-! ### Operands -/

/-- The value of a step, which `context` needs. -/
def required (context : String) (step : LowerM (Option Value)) : LowerM Value := do
  match ← step with
  | some value => return value
  | none => throw (.missingValue context)

/-- The value of a step, loaded if it is a stack slot. -/
def operand (context : String) (step : LowerM (Option Value)) : LowerM Value := do
  materialize (← required context step)

/-- What a name is bound to: a slot or a value.  Nothing is loaded. -/
def lowerIdent (name : String) : LowerM Value := do
  match (← get).scopes.resolve name with
  | some value => return value
  | none => throw (.unresolvedIdentifier name)

/-! ### Operators, assignments and calls -/

/-- What a binary operator becomes. -/
inductive LoweredOp where
  | arith (op : IR.Arith)
  | compare (pred : IR.Compare)
  deriving DecidableEq, Repr

def lowerOp : BinOp → Option LoweredOp
  | .add => some (.arith .fadd)
  | .sub => some (.arith .fsub)
  | .mul => some (.arith .fmul)
  | .div => some (.arith .sdiv)
  | .lt => some (.compare .olt)
  | .gt => some (.compare .ogt)
  | .le | .ge | .eq | .ne => none

/-- Both operands are lowered before the operator is looked at. -/
def lowerBinary (op : BinOp) (left right : LowerM (Option Value)) : LowerM Value := do
  let lhs ← operand "left operand" left
  let rhs ← operand "right operand" right
  match lowerOp op with
  | some (.arith op) => emit (·.arith · op lhs rhs)
  | some (.compare pred) => emit (·.fcmp · pred lhs rhs)
  | none => throw (.unsupportedOperator op)

/-- What a name without a slot stands for. -/
def unassignable (s : Lowerer) (name : String) : Unassignable :=
  match (s.scopes.declOf name).bind (s.decls[·]?) with
  | some { kind := .parameter, .. } => .parameter
  | some { kind := .variable, .. } => .value
  | none => .loopCounter

/-- Store a value into the slot that a name is bound to. -/
def lowerAssign (target : String) (value : LowerM (Option Value)) : LowerM Value := do
  let some slot := (← get).scopes.resolve target | throw (.undeclaredAssignment target)
  let c ← cursor
  match ← slotType c slot with
  | none => throw (.notAssignable target (unassignable (← get) target).text)
  | some _ =>
    let value ← operand "assigned value" value
    emit (·.store · value slot true)

/-- An argument of a call.  Only names of declared variables and parameters are loaded. -/
def lowerArg (key : Option String) (arg : LowerM (Option Value)) : LowerM Value := do
  let value ← required "call argument" arg
  match key with
  | some name =>
    if ((← get).scopes.declOf name).isSome then materialize value else return value
  | none => return value

/-- Call a function by name.  The number of arguments is checked before any is lowered. -/
def lowerCall (callee : String) (count : Nat) (args : LowerM (List Value)) : LowerM Value := do
  let some func := (← get).code.getFunction? callee | throw (.unknownCallee callee)
  let sig := ((← get).code.function func).sig
  unless sig.accepts count do
    throw (.arityMismatch callee sig.params.length count)
  let values ← args
  emit (·.call · func sig.ret values)

/-! ### Regions -/

/-- Lower a body under a copy of the current scope, adding its instructions at a cursor. -/
def lowerRegion {α : Type} (c : Cursor) (body : LowerM α) : LowerM α := do
  pushScopeCopy c
  closingScope body

/-- A conditional: the current block branches, and each arm is a region of its own. -/
def lowerIf (cond : LowerM (Option Value)) (thenBody elseBody : LowerM (Option Value)) :
    LowerM Unit := do
  let cond ← operand "condition" cond
  let c ← cursor
  let thenBlock ← createBlock c.func "then"
  let elseBlock ← createBlock c.func "else"
  let _ ← emitAt c (·.condBr · cond thenBlock elseBlock)
  let _ ← lowerRegion { c with block := thenBlock } thenBody
  let _ ← lowerRegion { c with block := elseBlock } elseBody

/-- The inside of a loop: the counter, the body, the step and the test.  The result is the block
after the loop. -/
def lowerLoopBody (before inside : Cursor) (start : Value) (body limit : LowerM (Option Value)) :
    LowerM BlockId := do
  let induction := (← get).options.inductionName
  let counter ← emitAt inside (·.phi · .f64 induction)
  addIncoming before.func counter start before.block
  declare induction counter none
  let _ ← body
  let next ← emit (·.arith · .fadd counter (.float .one))
  let bound ← operand "loop bound" limit
  let closing ← cursor
  let test ← emitAt closing (·.fcmp · .ole next bound)
  nameValue before.func next "nextvar"
  nameValue before.func test "loopcond"
  let after ← createBlock before.func "afterloop"
  let _ ← emitAt closing (·.condBr · test inside.block after)
  addIncoming before.func counter next closing.block
  return after

/-- A counting loop.  The block after it returns. -/
def lowerLoop (start body limit : LowerM (Option Value)) : LowerM Unit := do
  let start ← operand "loop start" start
  let before ← cursor
  let loopBlock ← createBlock before.func "loop"
  let _ ← emitAt before (·.br · loopBlock)
  let inside := { before with block := loopBlock }
  let after ← lowerRegion inside (lowerLoopBody before inside start body limit)
  let _ ← emitAt { before with block := after } (·.ret · none)

/-! ### Statements -/

def lowerReturn : Option (LowerM (Option Value)) → LowerM Value
  | none => emit (·.ret · none)
  | some value => do
    let value ← operand "return value" value
    emit (·.ret · (some value))

/-- A declaration with a value makes a new slot and assigns to it.  The name is bound before the
value is lowered. -/
def lowerVar (node : NodeId) (ty name : String) (init : LowerM (Option Value)) :
    LowerM Value := do
  let ty := typeOf ty
  let slot ← emit (·.alloca · ty name)
  let id ← addDecl { node, name, ty, kind := .variable }
  declare name slot (some id)
  let _ ← lowerAssign name init
  return slot

/-- Bind the parameters of a function to its arguments. -/
def declareParams : Nat → List Param → LowerM Unit
  | _, [] => return
  | i, p :: ps => do
    let id ← addDecl { node := p.id, name := p.name, ty := typeOf p.ty, kind := .parameter }
    declare p.name (.param i) (some id)
    declareParams (i + 1) ps

/-- The type a function returns; without a type name it returns nothing. -/
def returnType (retTy : Option String) : Ty :=
  match retTy with
  | some name => typeOf name
  | none => .void

/-- A function declaration adds a function to the module.  Its body sees its parameters and nothing
else. -/
def lowerFn (retTy : Option String) (name : String) (params : List Param)
    (hasTopLevelReturn : Bool) (body : LowerM (Option Value)) : LowerM Unit := do
  let ret := returnType retTy
  let func ← addFunction name { params := params.map fun p => typeOf p.ty, ret } .internal
  updateFunction func fun f =>
    ((), params.zipIdx.foldl (fun f (p, i) => f.setParamName i p.name) f)
  let entry ← createBlock func "entry"
  pushScope ⟨func, entry⟩
  closingScope do
    declareParams 0 params
    let _ ← body
    if ret.isVoid && !hasTopLevelReturn then
      let _ ← emit (·.ret · none)

/-! ### The walk -/

mutual

/-- Lower an expression. -/
def lowerExpr : Expr → LowerM (Option Value)
  | .int _ value => return some (.int value)
  | .double _ value => return some (.float value)
  | .string _ raw => return some (← addGlobalString "str" (literalText raw))
  | .ident _ name => return some (← lowerIdent name)
  | .call _ callee args => return some (← lowerCall callee args.length (lowerArgs args))
  | .binary _ op left right => return some (← lowerBinary op (lowerExpr left) (lowerExpr right))
  | .assign _ target value => return some (← lowerAssign target (lowerExpr value))
  | .ifElse _ cond thenBlock elseBlock => do
    lowerIf (lowerExpr cond) (lowerBlock thenBlock) (lowerBlock elseBlock)
    return none
  | .loop _ start limit body => do
    lowerLoop (lowerExpr start) (lowerBlock body) (lowerExpr limit)
    return none
  | .block _ body => lowerBlock body

/-- Lower the arguments of a call from left to right. -/
def lowerArgs : List Expr → LowerM (List Value)
  | [] => return []
  | arg :: args => do
    let value ← lowerArg arg.bindingKey (lowerExpr arg)
    return value :: (← lowerArgs args)

/-- Lower a statement. -/
def lowerStmt : Stmt → LowerM (Option Value)
  | .expr _ value => lowerExpr value
  | .ret _ none => return some (← lowerReturn none)
  | .ret _ (some value) => return some (← lowerReturn (some (lowerExpr value)))
  | .var _ _ name none => return some (← lowerIdent name)
  | .var id ty name (some init) => return some (← lowerVar id ty name (lowerExpr init))
  | .fn _ retTy name params body => do
    lowerFn retTy name params body.hasTopLevelReturn (lowerBlock body)
    return none
  | .block _ body => lowerBlock body

/-- Lower a block in the scope around it.  Its value is that of its last statement. -/
def lowerBlock : Block → LowerM (Option Value)
  | .mk _ stmts => lowerStmts none stmts

/-- Lower statements one after the other; `last` is the value of the one before. -/
def lowerStmts (last : Option Value) : List Stmt → LowerM (Option Value)
  | [] => return last
  | stmt :: stmts => do
    let value ← recovering (lowerStmt stmt)
    lowerStmts value stmts

end

end TreeCompiler.Lowering
