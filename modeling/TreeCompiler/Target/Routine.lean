/-
From a function of the intermediate representation to target code.

Blocks keep their order.  The phis at the head of a block become its parameters, and a branch passes
for each of them the input recorded for the branching block.  Constants and the addresses of strings
are made anew at each use, just before the instruction that uses them and in operand order.
-/
import TreeCompiler.IR.Module
import TreeCompiler.Target.Code
import TreeCompiler.Target.Error

namespace TreeCompiler.Target

open IR (FuncId BlockId InstId GlobalId Ty)

/-- What a function can refer to. -/
structure Environment where
  code : IR.Module
  conv : CallConv
  /-- The functions that are declared: their number and their signature. -/
  callees : List (FuncId × FunctionNumber × CodeSig)
  /-- The strings that are declared. -/
  strings : List GlobalId

/-- A function as far as its code is made. -/
structure Draft where
  /-- The types of the values, in the order in which they were made. -/
  types : List MachineTy := []
  /-- The values that stand for the results of instructions. -/
  results : List (InstId × ValueId) := []
  /-- The strings in the order of their first use. -/
  strings : List GlobalId := []
  slots : List Ty := []
  /-- The instructions of the current block. -/
  body : List Instr := []

/-- Steps in making the code of a function. -/
abbrev RoutineM := StateT Draft (Except CodegenError)

def unsupported {α : Type} (u : Unsupported) : RoutineM α := throw (.ofUnsupported u)

/-- Make a value of a type. -/
def newValue (ty : MachineTy) : RoutineM ValueId :=
  modifyGet fun d => (d.types.length, { d with types := d.types ++ [ty] })

/-- Add an instruction without a result. -/
def append (i : Instr) : RoutineM Unit :=
  modify fun d => { d with body := d.body ++ [i] }

/-- Add an instruction that makes a value. -/
def make (ty : MachineTy) (i : ValueId → Instr) : RoutineM ValueId := do
  let v ← newValue ty
  append (i v)
  return v

/-- The type of a value that has been made. -/
def typeOf (v : ValueId) : RoutineM MachineTy :=
  return ((← get).types[v]?).getD .i64

/-- Let a value stand for the result of an instruction. -/
def bindResult (id : InstId) (v : ValueId) : RoutineM Unit :=
  modify fun d => { d with results := (id, v) :: d.results }

/-- The number of a string in this function, given at its first use. -/
def stringNumber (id : GlobalId) : RoutineM Nat := do
  let known := (← get).strings
  match known.findIdx? (· = id) with
  | some n => return n
  | none =>
    modify fun d => { d with strings := d.strings ++ [id] }
    return known.length

/-- The machine type of something that must not be void. -/
def nonVoid (ty : Ty) (u : Unsupported) : RoutineM MachineTy :=
  match MachineTy.ofTy? ty with
  | some ty => return ty
  | none => unsupported u

/-! ### Operands -/

/-- The value of an operand.  `entry` holds the parameters of the first block. -/
def operand (env : Environment) (entry : List ValueId) : IR.Value → RoutineM ValueId
  | .const (.int n) => make .i64 (.iconst · n)
  | .const (.float x) => make .f64 (.f64const · x)
  | .param i =>
    match entry[i]? with
    | some v => return v
    | none => unsupported (.parameterOutOfRange i)
  | .global id =>
    if id ∈ env.strings then do
      let n ← stringNumber id
      make .pointer (.globalValue · n)
    else unsupported (.unknownString (env.code.global id).name)
  | .inst id => do
    match (← get).results.lookup id with
    | some v => return v
    | none => unsupported (.usedBeforeDefinition id)

/-- The phis at the head of a block. -/
def leadingPhis (f : IR.Function) (b : BlockId) : List (InstId × IR.Inst) :=
  (f.blockInsts b).takeWhile (·.2.op.isPhi)

/-- The inputs of a phi. -/
def phiInputs : IR.Op → List (IR.Value × BlockId)
  | .phi incoming => incoming
  | _ => []

/-- The arguments for the phis of `target` on the way from `source`. -/
def edgeArgs (env : Environment) (f : IR.Function) (entry : List ValueId)
    (source target : BlockId) : RoutineM (List ValueId) :=
  (leadingPhis f target).mapM fun (_, inst) => do
    match (phiInputs inst.op).find? (·.2 = source) with
    | some (value, _) => operand env entry value
    | none => unsupported (.missingInput (f.label target) (f.label source))

def checkBlockExists (f : IR.Function) (b : BlockId) : RoutineM Unit :=
  if b < f.blocks.length then return else unsupported (.unknownBlock b)

/-! ### Instructions -/

/-- A call of a function that takes further arguments goes through its address, with a signature
made from the arguments at hand. -/
def buildCall (env : Environment) (callee : FuncId) (ret : Ty) (args : List ValueId) :
    RoutineM (Option ValueId) := do
  let target := env.code.function callee
  match env.callees.lookup callee with
  | none => throw (.functionNotFound target.name)
  | some (number, sig) =>
    if target.sig.variadic then
      let params ← args.mapM typeOf
      let ret := MachineTy.ofTy? ret
      let addr ← make .pointer (.funcAddr · number)
      let dst ← ret.mapM newValue
      append (.callIndirect dst ⟨params, ret, env.conv⟩ addr args)
      return dst
    else
      let dst ← sig.ret.mapM newValue
      append (.call dst number args)
      return dst

/-- The code of an instruction of block `source`; what comes back is the value that stands for its
result. -/
def buildInst (env : Environment) (f : IR.Function) (entry : List ValueId) (source : BlockId)
    (inst : IR.Inst) : RoutineM (Option ValueId) := do
  match inst.op with
  | .alloca ty =>
    let slot := (← get).slots.length
    modify fun d => { d with slots := d.slots ++ [ty] }
    some <$> make .pointer (.stackAddr · slot)
  | .load ty ptr =>
    let ty ← nonVoid ty .voidValue
    let addr ← operand env entry ptr
    some <$> make ty (.load · ty addr)
  | .store value ptr _ =>
    let value ← operand env entry value
    let addr ← operand env entry ptr
    append (.store value addr)
    return none
  | .arith op lhs rhs =>
    let lhs ← operand env entry lhs
    let rhs ← operand env entry rhs
    some <$> make (← typeOf lhs) (.arith · op lhs rhs)
  | .fcmp pred lhs rhs =>
    let lhs ← operand env entry lhs
    let rhs ← operand env entry rhs
    some <$> make .i8 (.fcmp · pred lhs rhs)
  | .call callee args =>
    let args ← args.mapM (operand env entry)
    buildCall env callee inst.ty args
  | .phi _ => return none
  | .ret none =>
    append (.ret none)
    return none
  | .ret (some value) =>
    let value ← operand env entry value
    append (.ret (some value))
    return none
  | .br target =>
    let args ← edgeArgs env f entry source target
    checkBlockExists f target
    append (.jump target args)
    return none
  | .condBr cond thenBlock elseBlock =>
    let cond ← operand env entry cond
    let thenArgs ← edgeArgs env f entry source thenBlock
    let elseArgs ← edgeArgs env f entry source elseBlock
    checkBlockExists f thenBlock
    checkBlockExists f elseBlock
    append (.brif cond thenBlock thenArgs elseBlock elseArgs)
    return none

/-! ### Functions -/

/-- Make a parameter for each phi at the head of a block. -/
def phiParams (f : IR.Function) (b : BlockId) : RoutineM (List (ValueId × MachineTy)) :=
  (leadingPhis f b).mapM fun (id, inst) => do
    let ty ← nonVoid inst.ty .voidPhi
    let v ← newValue ty
    bindResult id v
    return (v, ty)

/-- The instructions of a block. -/
def buildBlock (env : Environment) (f : IR.Function) (entry : List ValueId) (b : BlockId) :
    RoutineM (List Instr) := do
  modify ({ · with body := [] })
  (f.blockInsts b).forM fun (id, inst) => do
    match ← buildInst env f entry b inst with
    | some v => bindResult id v
    | none => return
  return (← get).body

/-- The blocks of a function.  The parameters of the function follow those of its first block. -/
def buildBlocks (env : Environment) (f : IR.Function) (sig : CodeSig) :
    RoutineM (List CodeBlock) := do
  let blocks := List.range f.blocks.length
  let phis ← blocks.mapM (phiParams f)
  let args ← sig.params.mapM fun ty => return (← newValue ty, ty)
  let params := phis.modifyHead (· ++ args)
  let entry := (params.headD []).map (·.1)
  let bodies ← blocks.mapM (buildBlock env f entry)
  return List.zipWith CodeBlock.mk params bodies

/-- The target code of a function that is declared with the given signature. -/
def Routine.build (env : Environment) (f : IR.Function) (sig : CodeSig) :
    Except CodegenError Routine := do
  if f.isDeclaration then throw (.ofUnsupported (.noBody f.name))
  let (blocks, draft) ← (buildBlocks env f sig).run {}
  return { sig, slots := draft.slots, blocks }

end TreeCompiler.Target
