/-
The text of a module.

Results are named after their instruction, with its position appended to a given name, so that two
instructions never share one.
-/
import TreeCompiler.IR.Module
import TreeCompiler.IR.Quoted
import TreeCompiler.Decimal.Layout

namespace TreeCompiler.IR

def Const.text : Const → String
  | int value => toString value.toInt
  | float value => Decimal.doubleText .constant value

/-- A value spelled out by its constructors, as reports of internal faults show it. -/
def Value.spelling : Value → String
  | .const (.int value) => "Const(Int(" ++ toString value.toInt ++ "))"
  | .const (.float value) => "Const(Float(" ++ Decimal.doubleText .constant value ++ "))"
  | .inst id => "Inst(InstId(" ++ toString id ++ "))"
  | .param index => "Param(" ++ toString index ++ ")"
  | .global id => "Global(GlobalId(" ++ toString id ++ "))"

/-- The report of a value, spelled out, that was taken for a phi. -/
def notAPhiMessage (spelling : String) : String := "value " ++ spelling ++ " is not a phi"

def PhiError.message : PhiError → String
  | notAPhi value => notAPhiMessage value.spelling

namespace Function

/-- The name of the result of an instruction. -/
def instName (f : Function) (id : InstId) : String :=
  match f.insts[id]?.bind (·.name) with
  | some name => "%" ++ name ++ "." ++ toString id
  | none => "%" ++ toString id

/-- The name of a value inside a function. -/
def valueName (m : Module) (f : Function) : Value → String
  | .const c => c.text
  | .inst id => f.instName id
  | .param i => "%" ++ f.paramName i
  | .global id => "@" ++ (m.global id).name

/-- A value with its type. -/
def typedValue (m : Module) (f : Function) (v : Value) : String :=
  (f.valueType v).text ++ " " ++ f.valueName m v

/-- A block as a branch target. -/
def labelRef (f : Function) (b : BlockId) : String := "%" ++ f.label b

/-- The text of an operation; `ty` is the type of its result. -/
def opText (m : Module) (f : Function) (ty : Ty) : Op → String
  | .alloca slot => "alloca " ++ slot.text
  | .load loaded ptr => "load " ++ loaded.text ++ ", " ++ f.typedValue m ptr
  | .store value ptr volatile =>
    "store " ++ (if volatile then "volatile " else "") ++ f.typedValue m value ++ ", " ++
      f.typedValue m ptr
  | .arith op lhs rhs => op.mnemonic ++ " " ++ f.typedValue m lhs ++ ", " ++ f.valueName m rhs
  | .fcmp pred lhs rhs =>
    "fcmp " ++ pred.mnemonic ++ " " ++ f.typedValue m lhs ++ ", " ++ f.valueName m rhs
  | .call callee args =>
    "call " ++ ty.text ++ " @" ++ (m.function callee).name ++ "(" ++
      ", ".intercalate (args.map (f.typedValue m)) ++ ")"
  | .phi incoming =>
    "phi " ++ ty.text ++ " " ++ ", ".intercalate (incoming.map fun (v, b) =>
      "[ " ++ f.valueName m v ++ ", " ++ f.labelRef b ++ " ]")
  | .ret (some value) => "ret " ++ f.typedValue m value
  | .ret none => "ret void"
  | .br target => "br label " ++ f.labelRef target
  | .condBr cond thenBlock elseBlock =>
    "br " ++ f.typedValue m cond ++ ", label " ++ f.labelRef thenBlock ++ ", label " ++
      f.labelRef elseBlock

/-- The text of an instruction.  One without a result has no name. -/
def instText (m : Module) (f : Function) (id : InstId) (inst : Inst) : String :=
  if inst.ty.isVoid then f.opText m inst.ty inst.op
  else f.instName id ++ " = " ++ f.opText m inst.ty inst.op

/-- A block: its label, then one line per instruction. -/
def blockText (m : Module) (f : Function) (b : BlockId) : String :=
  f.label b ++ ":\n" ++
    String.join ((f.blockInsts b).map fun (id, inst) => "  " ++ f.instText m id inst ++ "\n")

/-- The text of a function that has no body. -/
def declarationText (f : Function) : String :=
  let params := f.sig.params.map Ty.text ++ (if f.sig.variadic then ["..."] else [])
  "declare " ++ f.sig.ret.text ++ " @" ++ f.name ++ "(" ++ ", ".intercalate params ++ ")\n"

/-- The text of a function with a body; an empty line parts the blocks. -/
def definitionText (m : Module) (f : Function) : String :=
  let params := f.sig.params.zipIdx.map fun (ty, i) => ty.text ++ " %" ++ f.paramName i
  "define " ++ f.linkage.text ++ " " ++ f.sig.ret.text ++ " @" ++ f.name ++ "(" ++
    ", ".intercalate params ++ ") \x7b\n" ++
    "\n".intercalate ((List.range f.blocks.length).map (f.blockText m)) ++ "\x7d\n"

def text (m : Module) (f : Function) : String :=
  if f.isDeclaration then f.declarationText else f.definitionText m

end Function

def GlobalString.line (g : GlobalString) : String :=
  "@" ++ g.name ++ " = private constant c\"" ++ escapeBytes g.text ++ "\"\n"

/-- The text of a whole module. -/
def Module.text (m : Module) : String :=
  "; module " ++ m.name ++ "\n" ++
    (match m.targetTriple with
      | some triple => "target triple = \"" ++ triple ++ "\"\n"
      | none => "") ++
    String.join (m.globals.map GlobalString.line) ++
    String.join (m.functions.map fun f => "\n" ++ f.text m)

end TreeCompiler.IR
