/-
What is wrong with a module.

Lowering may leave a module in pieces: a branch without an end, an instruction that nothing reaches,
an operand of the wrong type.  The checks here find every such spot, function by function, block by
block and in the order of the instructions.
-/
import TreeCompiler.IR.Module

namespace TreeCompiler.IR

/-- A rule that a block or an instruction breaks. -/
inductive Violation where
  | missingTerminator
  | instructionAfterTerminator
  | misplacedPhi
  | operandType (op expected : String) (found : Ty)
  | notAPointer (op : String) (found : Ty)
  | storeType (expected found : Ty)
  | voidSlot
  | callArity (callee : String) (expected found : Nat)
  | callArgType (callee : String) (index : Nat) (expected found : Ty)
  | returnType (expected found : Ty)
  | conditionType (found : Ty)
  | phiType (expected found : Ty)
  deriving DecidableEq, Repr

/-- The rule in words. -/
def Violation.message : Violation → String
  | missingTerminator => "block has no terminator"
  | instructionAfterTerminator => "instruction after terminator"
  | misplacedPhi => "phi is not at the start of its block"
  | operandType op expected found =>
    "`" ++ op ++ "` expects " ++ expected ++ " operands, found " ++ found.text
  | notAPointer op found => "`" ++ op ++ "` operand must be ptr, found " ++ found.text
  | storeType expected found =>
    "stored value is " ++ found.text ++ " but the slot holds " ++ expected.text
  | voidSlot => "cannot allocate a slot of type void"
  | callArity callee expected found =>
    "call to @" ++ callee ++ " passes " ++ toString found ++ " arguments, expected " ++
      toString expected
  | callArgType callee index expected found =>
    "argument " ++ toString index ++ " of call to @" ++ callee ++ " is " ++ found.text ++
      ", expected " ++ expected.text
  | returnType expected found =>
    "return of " ++ found.text ++ " from a function returning " ++ expected.text
  | conditionType found => "branch condition must be i1, found " ++ found.text
  | phiType expected found =>
    "phi of type " ++ expected.text ++ " has an incoming " ++ found.text ++ " value"

/-- A violation and the block it is in. -/
structure VerifyError where
  function : String
  block : String
  violation : Violation
  deriving DecidableEq, Repr

def VerifyError.message (e : VerifyError) : String :=
  "in @" ++ e.function ++ ", block `" ++ e.block ++ "`: " ++ e.violation.message

/-! ### The shape of a block -/

/-- A block has exactly one terminator, and it comes last. -/
def checkTerminator (ops : List Op) : List Violation :=
  match ops.findIdx? Op.isTerminator with
  | none => [.missingTerminator]
  | some pos => if pos + 1 = ops.length then [] else [.instructionAfterTerminator]

/-- Phis come first. -/
def checkPhis (ops : List Op) : List Violation :=
  if (ops.dropWhile Op.isPhi).any Op.isPhi then [.misplacedPhi] else []

def checkShape (ops : List Op) : List Violation :=
  checkTerminator ops ++ checkPhis ops

/-! ### The types of an instruction -/

namespace Function

/-- The addresses of loads and stores are pointers, and a slot is given what it holds. -/
def checkStore (f : Function) (value ptr : Value) : List Violation :=
  if f.valueType ptr ≠ .ptr then [.notAPointer "store" (f.valueType ptr)]
  else
    match f.slotType ptr with
    | some expected =>
      if f.valueType value = expected then [] else [.storeType expected (f.valueType value)]
    | none => []

/-- Floating-point operations take two floats, the division two integers of one type. -/
def checkArith (f : Function) (op : Arith) (lhs rhs : Value) : List Violation :=
  let l := f.valueType lhs
  let r := f.valueType rhs
  if op.isFloat then
    if !l.isFloat then [.operandType op.mnemonic "f64" l]
    else if !r.isFloat then [.operandType op.mnemonic "f64" r]
    else []
  else if l.isInt && l = r then []
  else [.operandType op.mnemonic "integer" l]

/-- A comparison takes two floats; the first that is not one is reported. -/
def checkCompare (f : Function) (lhs rhs : Value) : List Violation :=
  match [lhs, rhs].find? fun v => !(f.valueType v).isFloat with
  | some v => [.operandType "fcmp" "f64" (f.valueType v)]
  | none => []

/-- A call passes as many arguments as its callee takes, the declared ones of the declared types. -/
def checkCall (m : Module) (f : Function) (callee : FuncId) (args : List Value) :
    List Violation :=
  let target := m.function callee
  if target.sig.accepts args.length then
    (args.zip target.sig.params).zipIdx.filterMap fun ((arg, expected), index) =>
      if f.valueType arg = expected then none
      else some (.callArgType target.name index expected (f.valueType arg))
  else [.callArity target.name target.sig.params.length args.length]

/-- Everything wrong with one instruction. -/
def checkInst (m : Module) (f : Function) (inst : Inst) : List Violation :=
  match inst.op with
  | .alloca ty => if ty.isVoid then [.voidSlot] else []
  | .load _ ptr =>
    if f.valueType ptr = .ptr then [] else [.notAPointer "load" (f.valueType ptr)]
  | .store value ptr _ => f.checkStore value ptr
  | .arith op lhs rhs => f.checkArith op lhs rhs
  | .fcmp _ lhs rhs => f.checkCompare lhs rhs
  | .call callee args => f.checkCall m callee args
  | .phi incoming =>
    incoming.filterMap fun (v, _) =>
      if f.valueType v = inst.ty then none else some (.phiType inst.ty (f.valueType v))
  | .ret value =>
    let found := (value.map f.valueType).getD .void
    if found = f.sig.ret then [] else [.returnType f.sig.ret found]
  | .br _ => []
  | .condBr cond _ _ =>
    if f.valueType cond = .i1 then [] else [.conditionType (f.valueType cond)]

/-- Everything wrong with one block: its shape first, then its instructions. -/
def checkBlock (m : Module) (f : Function) (b : BlockId) : List VerifyError :=
  let insts := (f.blockInsts b).map (·.2)
  let violations := checkShape (insts.map (·.op)) ++ insts.flatMap (f.checkInst m)
  violations.map fun v => { function := f.name, block := f.label b, violation := v }

def verify (m : Module) (f : Function) : List VerifyError :=
  (List.range f.blocks.length).flatMap (f.checkBlock m)

end Function

/-- Everything wrong with a module.  Functions without a body have nothing to check. -/
def Module.verify (m : Module) : List VerifyError :=
  m.functions.flatMap (·.verify m)

end TreeCompiler.IR
