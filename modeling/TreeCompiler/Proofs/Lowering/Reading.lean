/-
Programs that are read and not lowered.

What a name stands for at a place of a program, which function a call means and what type a value
has can be told from the tree.  A reader walks the tree in the order of lowering and keeps in mind
what is in scope: the names with what they were declared as, and the functions with the types that
their declarations name.  There is no module and no state of lowering in this; what a function
returns is what stands in its declaration.

A node can have a type, it can have none, or it can be refused, and a refused statement is left out
or ends the reading.  The reader writes down every node that it comes to with what is in scope there
(`readings`).
-/
import TreeCompiler.Proofs.Lowering.Journey

namespace TreeCompiler.Lowering

open IR (Ty)
open Program (Expr Stmt Block BinOp Param)

/-! ### What is in scope -/

/-- What a name was declared as. -/
inductive Meaning where
  | variable (ty : Ty)
  | parameter (ty : Ty)
  | counter
  deriving DecidableEq, Repr

/-- The type of what a name stands for.  Loops count in floating point. -/
def Meaning.ty : Meaning → Ty
  | .variable ty | .parameter ty => ty
  | .counter => .f64

/-- What is in scope at a place of a program.  The latest declaration of a name comes first;
functions go by the name that they were given, which the names requested so far decide. -/
structure Scene where
  names : List (String × Meaning) := []
  functions : List (String × IR.Signature) := []
  supply : IR.NameSupply := {}
  deriving DecidableEq, Repr

namespace Scene

/-- A name of the module is requested. -/
def request (scene : Scene) (base : String) : Scene :=
  { scene with supply := scene.supply.record base }

def addFunction (scene : Scene) (name : String) (sig : IR.Signature) : Scene :=
  { scene.request name with
    functions := scene.functions ++ [(scene.supply.next "." name, sig)] }

def bind (scene : Scene) (name : String) (meaning : Meaning) : Scene :=
  { scene with names := (name, meaning) :: scene.names }

/-- A function sees its parameters and no other names. -/
def inFunction (scene : Scene) (params : List Param) : Scene :=
  { scene with
    names := (params.map fun p => (p.name, .parameter (typeOf p.ty))).reverse }

/-- What every program starts from: the printing function of the system, the helper that prints a
line and the entry function. -/
def initial (options : Options) : Scene :=
  ((({} : Scene).addFunction "printf" { params := [.str], ret := .i32, variadic := true }).request
    "new_line").addFunction options.helperName { params := [.str], ret := .void }
    |>.addFunction options.entryName { params := [], ret := .void }

end Scene

/-! ### Reading -/

/-- A node and what is in scope where it stands. -/
structure Reading where
  node : Node
  scene : Scene

/-- What a reader keeps in mind, and what it has written down. -/
structure Reader where
  scene : Scene
  readings : List Reading := []

/-- Steps of reading.  A step that refuses leaves what was in mind and what was written. -/
abbrev ReadM := OptionT (StateM Reader)

/-- How a step of reading ends, and the reader it leaves. -/
def ReadM.result {α : Type} (x : ReadM α) (r : Reader) : Option α × Reader := x.run.run r

def changeScene (change : Scene → Scene) : ReadM Unit :=
  modify fun r => { r with scene := change r.scene }

/-- Write a node down. -/
def note (n : Node) : ReadM Unit :=
  modify fun r => { r with readings := r.readings ++ [⟨n, r.scene⟩] }

def meaningOf (name : String) : ReadM Meaning :=
  OptionT.mk do return (← get).scene.names.lookup name

def calleeOf (name : String) : ReadM IR.Signature :=
  OptionT.mk do return (← get).scene.functions.lookup name

/-- The names that are declared on the way go out of scope at the end, however it ends. -/
def enclosed {α : Type} (body : ReadM α) : ReadM α := OptionT.mk do
  let outer := (← get).scene.names
  let result ← body.run
  modify fun r => { r with scene := { r.scene with names := outer } }
  return result

/-- A type, where one is needed. -/
def needed (x : ReadM (Option Ty)) : ReadM Ty := do
  match ← x with
  | some ty => return ty
  | none => failure

/-- A statement that is refused ends the reading, or is left out and has no type. -/
def leavingOut (policy : ErrorPolicy) (x : ReadM (Option Ty)) : ReadM (Option Ty) :=
  match policy with
  | .failFast => x
  | .bestEffort => x <|> pure none

/-! ### Constructs -/

def readName (name : String) : ReadM Ty := return (← meaningOf name).ty

/-- A call has the type that the function was declared to return.  It is refused if there is no such
function, or if it does not take as many arguments. -/
def readCall (callee : String) (count : Nat) (args : ReadM Unit) : ReadM Ty := do
  let sig ← calleeOf callee
  if sig.accepts count then
    args
    return sig.ret
  else failure

/-- A sum, difference, product or quotient has the type of its left operand. -/
def readBinary (op : BinOp) (left right : ReadM (Option Ty)) : ReadM Ty := do
  let ty ← needed left
  let _ ← needed right
  match op with
  | .add | .sub | .mul | .div => return ty
  | .lt | .gt => return .i1
  | .le | .ge | .eq | .ne => failure

/-- Only variables can be assigned to. -/
def readAssign (target : String) (value : ReadM (Option Ty)) : ReadM Ty := do
  match ← meaningOf target with
  | .variable _ =>
    let _ ← needed value
    return .void
  | .parameter _ | .counter => failure

def readIf (cond thenBody elseBody : ReadM (Option Ty)) : ReadM Unit := do
  let _ ← needed cond
  let _ ← enclosed thenBody
  let _ ← enclosed elseBody
  return

/-- The limit of a loop is read where its body is. -/
def readLoop (counter : String) (start body limit : ReadM (Option Ty)) : ReadM Unit := do
  let _ ← needed start
  enclosed do
    changeScene (·.bind counter .counter)
    let _ ← body
    let _ ← needed limit
    return

def readReturn (value : ReadM (Option Ty)) : ReadM Ty := do
  let _ ← needed value
  return .void

/-- A declaration assigns to its name, which is in scope in its own value. -/
def readVar (ty name : String) (init : ReadM (Option Ty)) : ReadM Ty := do
  changeScene (·.bind name (.variable (typeOf ty)))
  let _ ← readAssign name init
  return typeOf ty

/-- What a declaration says of a function: the types of its parameters and what it returns, which is
nothing if no type is named. -/
def declaredSignature (retTy : Option String) (params : List Param) : IR.Signature :=
  { params := params.map (typeOf ·.ty), ret := retTy.elim .void typeOf }

def readFn (retTy : Option String) (name : String) (params : List Param)
    (body : ReadM (Option Ty)) : ReadM Unit := do
  changeScene (·.addFunction name (declaredSignature retTy params))
  enclosed do
    changeScene (·.inFunction params)
    let _ ← body
    return

/-! ### The walk -/

mutual

/-- The type of an expression, if it has one. -/
def readExpr (options : Options) (e : Expr) : ReadM (Option Ty) := do
  note (.expr e)
  match e with
  | .int .. => return some .i64
  | .double .. => return some .f64
  | .string .. =>
    changeScene (·.request "str")
    return some .str
  | .ident _ name => return some (← readName name)
  | .call _ callee args => return some (← readCall callee args.length (readArgs options args))
  | .binary _ op left right =>
    return some (← readBinary op (readExpr options left) (readExpr options right))
  | .assign _ target value => return some (← readAssign target (readExpr options value))
  | .ifElse _ cond thenBlock elseBlock =>
    readIf (readExpr options cond) (readBlock options thenBlock) (readBlock options elseBlock)
    return none
  | .loop _ start limit body =>
    readLoop options.inductionName (readExpr options start) (readBlock options body)
      (readExpr options limit)
    return none
  | .block _ body => readBlock options body

/-- Every argument of a call needs a type, and any will do. -/
def readArgs (options : Options) : List Expr → ReadM Unit
  | [] => return
  | arg :: args => do
    let _ ← needed (readExpr options arg)
    readArgs options args

/-- The type of a statement.  A declaration without a value stands for the name that it repeats. -/
def readStmt (options : Options) (stmt : Stmt) : ReadM (Option Ty) := do
  note (.stmt stmt)
  match stmt with
  | .expr _ value => readExpr options value
  | .ret _ none => return some .void
  | .ret _ (some value) => return some (← readReturn (readExpr options value))
  | .var _ _ name none => return some (← readName name)
  | .var _ ty name (some init) => return some (← readVar ty name (readExpr options init))
  | .fn _ retTy name params body =>
    readFn retTy name params (readBlock options body)
    return none
  | .block _ body => readBlock options body

/-- The type of a block is that of its last statement. -/
def readBlock (options : Options) (block : Block) : ReadM (Option Ty) := do
  note (.block block)
  match block with
  | .mk _ stmts => readStmts options stmts none

def readStmts (options : Options) : List Stmt → Option Ty → ReadM (Option Ty)
  | [], last => return last
  | stmt :: stmts, _ => do
    let ty ← leavingOut options.policy (readStmt options stmt)
    readStmts options stmts ty

end

/-- The step of reading for a node. -/
def Node.read (options : Options) : Node → ReadM (Option Ty)
  | .expr e => readExpr options e
  | .stmt s => readStmt options s
  | .block b => readBlock options b

/-- What is read off a node where this is in scope: its type, that it has none, or that it is
refused. -/
def Scene.read (scene : Scene) (options : Options) (n : Node) : Option (Option Ty) :=
  ((n.read options).result { scene }).1

/-- Every node of a program that is come to, in order, and what is in scope there. -/
def readings (root : Block) (options : Options) : List Reading :=
  ((readBlock options root).result { scene := .initial options }).2.readings

/-- The last statement of a block sees what the block declares, and a call has the type that stands
in the declaration of the function. -/
example : (Scene.initial {}).read {} (.block (.mk 0
    [.fn 1 (some "int") "f" [] (.mk 2 []), .var 3 "double" "x" (some (.call 4 "f" [])),
      .expr 5 (.binary 6 .mul (.call 7 "f" []) (.ident 8 "x"))])) = some (some .i64) := by
  decide +kernel

/-! ### How steps of reading end -/

section Results

variable {α β : Type} {x : ReadM α} {k : α → ReadM β} {a : α} {r r' : Reader}

@[simp] theorem result_pure (a : α) (r : Reader) : (pure a : ReadM α).result r = (some a, r) := rfl

@[simp] theorem result_failure (r : Reader) : (failure : ReadM α).result r = (none, r) := rfl

theorem result_bind_some (h : x.result r = (some a, r')) :
    (x >>= k).result r = (k a).result r' := by
  have hrun : x.run.run r = (some a, r') := h
  rw [ReadM.result, OptionT.run_bind, Option.elimM, StateT.run_bind, hrun]
  rfl

theorem result_bind_none (h : x.result r = (none, r')) : (x >>= k).result r = (none, r') := by
  have hrun : x.run.run r = (none, r') := h
  rw [ReadM.result, OptionT.run_bind, Option.elimM, StateT.run_bind, hrun]
  rfl

theorem result_orElse_some (y : ReadM α) (h : x.result r = (some a, r')) :
    (x <|> y).result r = (some a, r') := by
  have hrun : x.run.run r = (some a, r') := h
  rw [ReadM.result, OptionT.run_orElse, Option.elimM, StateT.run_bind, hrun]
  rfl

theorem result_orElse_none (y : ReadM α) (h : x.result r = (none, r')) :
    (x <|> y).result r = y.result r' := by
  have hrun : x.run.run r = (none, r') := h
  rw [ReadM.result, OptionT.run_orElse, Option.elimM, StateT.run_bind, hrun]
  rfl

@[simp] theorem result_meaningOf (name : String) (r : Reader) :
    (meaningOf name).result r = (r.scene.names.lookup name, r) := rfl

@[simp] theorem result_calleeOf (callee : String) (r : Reader) :
    (calleeOf callee).result r = (r.scene.functions.lookup callee, r) := rfl

@[simp] theorem result_changeScene_bind (change : Scene → Scene) (k : Unit → ReadM β) :
    (changeScene change >>= k).result r = (k ()).result { r with scene := change r.scene } := rfl

@[simp] theorem result_note_bind (n : Node) (k : Unit → ReadM β) :
    (note n >>= k).result r
      = (k ()).result { r with readings := r.readings ++ [⟨n, r.scene⟩] } := rfl

theorem result_enclosed (x : ReadM α) (r : Reader) :
    (enclosed x).result r = ((x.result r).1,
      { (x.result r).2 with scene := { (x.result r).2.scene with names := r.scene.names } }) := rfl

theorem result_leavingOut_some {x : ReadM (Option Ty)} {ty : Option Ty} (policy : ErrorPolicy)
    (h : x.result r = (some ty, r')) : (leavingOut policy x).result r = (some ty, r') := by
  cases policy with
  | failFast => exact h
  | bestEffort => exact result_orElse_some _ h

theorem result_leavingOut_none {x : ReadM (Option Ty)} (policy : ErrorPolicy)
    (h : x.result r = (none, r')) :
    (leavingOut policy x).result r
      = if policy = .failFast then (none, r') else (some none, r') := by
  cases policy with
  | failFast => exact h
  | bestEffort => exact result_orElse_none _ h

end Results

end TreeCompiler.Lowering
