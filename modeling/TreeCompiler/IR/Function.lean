/-
Functions: basic blocks over one list of instructions.

Blocks and instructions are only ever added, at the end, so their positions stay valid.
-/
import TreeCompiler.IR.Basic
import TreeCompiler.IR.NameSupply

namespace TreeCompiler.IR

/-- Who can see a function. -/
inductive Linkage where
  /-- Visible outside the module: the entry point and the imports. -/
  | external
  /-- A function of the program, local to the module. -/
  | internal
  /-- A function that the compiler adds, local to the module. -/
  | concealed
  deriving DecidableEq, Repr, Inhabited

/-- The name a linkage has in the text of a module. -/
def Linkage.text : Linkage → String
  | external => "external"
  | internal => "internal"
  | concealed => "private"

/-- The parameter types and the return type of a function. -/
structure Signature where
  params : List Ty
  ret : Ty
  /-- Whether further arguments of any type may follow. -/
  variadic : Bool := false
  deriving DecidableEq, Repr, Inhabited

/-- Whether a call with `n` arguments has enough of them and not too many. -/
def Signature.accepts (sig : Signature) (n : Nat) : Bool :=
  if sig.variadic then decide (sig.params.length ≤ n) else n = sig.params.length

/-- A basic block. -/
structure BasicBlock where
  name : String
  insts : List InstId := []
  deriving DecidableEq, Repr, Inhabited

structure Function where
  name : String
  sig : Signature
  linkage : Linkage
  paramNames : List String
  blocks : List BasicBlock := []
  insts : List Inst := []
  labels : NameSupply := {}
  deriving DecidableEq, Repr, Inhabited

/-- Why an input could not be added to a phi. -/
inductive PhiError where
  | notAPhi (value : Value)
  deriving DecidableEq, Repr

namespace Function

/-- A function without blocks, its parameters named by position. -/
def new (name : String) (sig : Signature) (linkage : Linkage) : Function :=
  { name, sig, linkage
    paramNames := (List.range sig.params.length).map fun i => "arg" ++ toString i }

/-- A function without blocks is defined elsewhere. -/
def isDeclaration (f : Function) : Bool := f.blocks.isEmpty

def paramName (f : Function) (index : Nat) : String :=
  (f.paramNames[index]?).getD "arg"

def setParamName (f : Function) (index : Nat) (name : String) : Function :=
  { f with paramNames := f.paramNames.set index name }

/-! ### Blocks -/

/-- Add an empty block under a name that no other request in this function got. -/
def createBlock (f : Function) (base : String) : BlockId × Function :=
  (f.blocks.length,
    { f with
      blocks := f.blocks ++ [{ name := f.labels.next "" base }]
      labels := f.labels.record base })

def entryBlock (f : Function) : Option BlockId :=
  if f.blocks.isEmpty then none else some 0

/-- The name of a block. -/
def label (f : Function) (b : BlockId) : String :=
  match f.blocks[b]? with
  | some block => block.name
  | none => ""

/-- The instructions of a block, in order, each with its position. -/
def blockInsts (f : Function) (b : BlockId) : List (InstId × Inst) :=
  match f.blocks[b]? with
  | some block => block.insts.filterMap fun id => f.insts[id]?.map (id, ·)
  | none => []

/-- The operation that ends a block, if its last one does. -/
def terminator (f : Function) (b : BlockId) : Option Op :=
  match (f.blockInsts b).getLast? with
  | some (_, inst) => if inst.op.isTerminator then some inst.op else none
  | none => none

def isTerminated (f : Function) (b : BlockId) : Bool := (f.terminator b).isSome

/-! ### Instructions -/

/-- Add an instruction at the end of a block. -/
def push (f : Function) (b : BlockId) (op : Op) (ty : Ty) (name : Option String) :
    Value × Function :=
  (.inst f.insts.length,
    { f with
      insts := f.insts ++ [{ op, ty, name, block := b }]
      blocks := f.blocks.modify b fun block =>
        { block with insts := block.insts ++ [f.insts.length] } })

/-- Name the result of an instruction.  Other values keep the names they have. -/
def setValueName (f : Function) (value : Value) (name : String) : Function :=
  match value with
  | .inst id => { f with insts := f.insts.modify id ({ · with name := some name }) }
  | _ => f

/-- Record `value` as what a phi yields when control comes from `source`. -/
def addIncoming (f : Function) (phi value : Value) (source : BlockId) :
    Except PhiError Function :=
  match phi with
  | .inst id =>
    match f.insts[id]? with
    | some { op := .phi incoming, ty, name, block } =>
      .ok { f with
        insts := f.insts.set id { op := .phi (incoming ++ [(value, source)]), ty, name, block } }
    | _ => .error (.notAPhi phi)
  | _ => .error (.notAPhi phi)

/-- The type of a value inside this function; `void` if there is no such value. -/
def valueType (f : Function) : Value → Ty
  | .const c => c.ty
  | .inst id => (f.insts[id]?.map (·.ty)).getD .void
  | .param i => (f.sig.params[i]?).getD .void
  | .global _ => .str

/-- The type of what is stored, when a value is the address of a stack slot. -/
def slotType (f : Function) : Value → Option Ty
  | .inst id =>
    match f.insts[id]? with
    | some { op := .alloca ty, .. } => some ty
    | _ => none
  | _ => none

/-! ### One instruction at the end of a block -/

def alloca (f : Function) (b : BlockId) (ty : Ty) (name : String) : Value × Function :=
  f.push b (.alloca ty) .ptr (some name)

def load (f : Function) (b : BlockId) (ty : Ty) (ptr : Value) : Value × Function :=
  f.push b (.load ty ptr) ty none

def store (f : Function) (b : BlockId) (value ptr : Value) (volatile : Bool) : Value × Function :=
  f.push b (.store value ptr volatile) .void none

/-- The result has the type of the left operand. -/
def arith (f : Function) (b : BlockId) (op : Arith) (lhs rhs : Value) : Value × Function :=
  f.push b (.arith op lhs rhs) (f.valueType lhs) none

def fcmp (f : Function) (b : BlockId) (pred : Compare) (lhs rhs : Value) : Value × Function :=
  f.push b (.fcmp pred lhs rhs) .i1 none

/-- A call; `ret` is what the callee returns. -/
def call (f : Function) (b : BlockId) (callee : FuncId) (ret : Ty) (args : List Value) :
    Value × Function :=
  f.push b (.call callee args) ret none

/-- A phi without inputs. -/
def phi (f : Function) (b : BlockId) (ty : Ty) (name : String) : Value × Function :=
  f.push b (.phi []) ty (some name)

def ret (f : Function) (b : BlockId) (value : Option Value) : Value × Function :=
  f.push b (.ret value) .void none

def br (f : Function) (b : BlockId) (target : BlockId) : Value × Function :=
  f.push b (.br target) .void none

def condBr (f : Function) (b : BlockId) (cond : Value) (thenBlock elseBlock : BlockId) :
    Value × Function :=
  f.push b (.condBr cond thenBlock elseBlock) .void none

end Function

end TreeCompiler.IR
