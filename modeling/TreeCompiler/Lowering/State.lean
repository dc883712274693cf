/-
The state of a run of lowering and its elementary steps.

A step that fails still has a state after it: what was emitted before the failure stays.
-/
import TreeCompiler.Lowering.Scope

namespace TreeCompiler.Lowering

open IR (FuncId BlockId Ty Value)

structure Lowerer where
  code : IR.Module
  options : Options
  scopes : ScopeStack := {}
  /-- Every declaration met so far. -/
  decls : List Decl := []
  /-- The errors of the statements that were left out. -/
  errors : List LowerError := []
  deriving Repr

/-- Lowering steps: they change the state and may fail. -/
abbrev LowerM := ExceptT LowerError (StateM Lowerer)

/-- Let a query of the scopes fail as it does. -/
def liftScopes {α : Type} (query : ScopeStack → Except LowerError α) : LowerM α := do
  match query (← get).scopes with
  | .ok a => return a
  | .error e => throw e

/-- Change the scopes, or fail and leave them. -/
def changeScopes (change : ScopeStack → Except LowerError ScopeStack) : LowerM Unit := do
  let scopes ← liftScopes change
  modify ({ · with scopes })

def cursor : LowerM Cursor := liftScopes ScopeStack.cursor

def pushScope (c : Cursor) : LowerM Unit :=
  modify fun s => { s with scopes := s.scopes.push c }

def pushScopeCopy (c : Cursor) : LowerM Unit := changeScopes (·.pushCopy c)

def popScope : LowerM Unit := changeScopes fun s => s.pop.map (·.2)

def declare (name : String) (value : Value) (decl : Option DeclId) : LowerM Unit :=
  changeScopes (·.declare name value decl)

/-- Enter a declaration into the record. -/
def addDecl (decl : Decl) : LowerM DeclId :=
  modifyGet fun s => (s.decls.length, { s with decls := s.decls ++ [decl] })

/-! ### Changing the module -/

/-- Change one function. -/
def updateFunction {α : Type} (func : FuncId) (change : IR.Function → α × IR.Function) :
    LowerM α :=
  modifyGet fun s =>
    let (result, code) := s.code.updateFunction func change
    (result, { s with code })

def addFunction (name : String) (sig : IR.Signature) (linkage : IR.Linkage) : LowerM FuncId :=
  modifyGet fun s =>
    let (id, code) := s.code.addFunction name sig linkage
    (id, { s with code })

def addGlobalString (name text : String) : LowerM Value :=
  modifyGet fun s =>
    let (value, code) := s.code.addGlobalString name text
    (value, { s with code })

/-- Add a block to a function. -/
def createBlock (func : FuncId) (base : String) : LowerM BlockId :=
  updateFunction func (·.createBlock base)

/-- Add an instruction at a cursor. -/
def emitAt (c : Cursor) (step : IR.Function → BlockId → Value × IR.Function) : LowerM Value :=
  updateFunction c.func (step · c.block)

/-- Add an instruction where the innermost region adds them. -/
def emit (step : IR.Function → BlockId → Value × IR.Function) : LowerM Value := do
  emitAt (← cursor) step

/-- Give a phi another input. -/
def addIncoming (func : FuncId) (phi value : Value) (source : BlockId) : LowerM Unit := do
  match ((← get).code.function func).addIncoming phi value source with
  | .ok f => modify fun s => { s with code := s.code.setFunction func f }
  | .error (.notAPhi value) => throw (.notAPhi value.spelling)

def nameValue (func : FuncId) (value : Value) (name : String) : LowerM Unit :=
  updateFunction func fun f => ((), f.setValueName value name)

/-- The type of the stack slot that a value is the address of, in the function of a cursor. -/
def slotType (c : Cursor) (value : Value) : LowerM (Option Ty) :=
  return ((← get).code.function c.func).slotType value

/-- The value that a stack slot holds.  Any other value is its own. -/
def materialize (value : Value) : LowerM Value := do
  let c ← cursor
  match ← slotType c value with
  | some ty => emitAt c (·.load · ty value)
  | none => return value

/-! ### Going on after an error -/

/-- Close the innermost scope after a step, whether or not the step fails. -/
def closingScope {α : Type} (step : LowerM α) : LowerM α := do
  let outcome : Except LowerError α ← tryCatch (return .ok (← step)) fun e => return .error e
  popScope
  match outcome with
  | .ok a => return a
  | .error e => throw e

/-- Record the error of a statement, or pass it on if lowering has to stop. -/
def recover (e : LowerError) : LowerM (Option Value) := do
  if e.isInternal || (← get).options.policy = .failFast then throw e
  modify fun s => { s with errors := s.errors ++ [e] }
  return none

/-- Lower a statement, leaving it out if that fails. -/
def recovering (stmt : LowerM (Option Value)) : LowerM (Option Value) :=
  tryCatch stmt recover

end TreeCompiler.Lowering
