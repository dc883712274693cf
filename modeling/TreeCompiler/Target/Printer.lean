/-
The text of target code.
-/
import TreeCompiler.Decimal.Double
import TreeCompiler.Target.Code

namespace TreeCompiler.Target

/-! ### Floating-point constants

A double is written in hexadecimal, its fraction with all thirteen digits. -/

/-- `n` in hexadecimal with exactly `width` digits. -/
def hexDigits (width n : Nat) : String :=
  let ds := Nat.toDigits 16 n
  String.ofList (List.replicate (width - ds.length) '0' ++ ds)

/-- The magnitude `mantissa · 2 ^ exponent`.  A normal number has a one before the point, a
subnormal one a zero. -/
def hexMagnitude (mantissa : Nat) (exponent : Int) : String :=
  if mantissa = 0 then "0.0"
  else if mantissa < Double.normalBound then
    "0x0." ++ hexDigits 13 mantissa ++ "p" ++ toString (exponent + 52)
  else
    "0x1." ++ hexDigits 13 (mantissa - Double.normalBound) ++ "p" ++ toString (exponent + 52)

def doubleConstant (x : Double) : String :=
  match x.value with
  | .nan true => "-NaN"
  | .nan false => "+NaN"
  | .infinite true => "-Inf"
  | .infinite false => "+Inf"
  | .finite true mantissa exponent => "-" ++ hexMagnitude mantissa exponent
  | .finite false mantissa exponent => hexMagnitude mantissa exponent

/-! ### Instructions -/

def valueText (v : ValueId) : String := "v" ++ toString v

def valueList (vs : List ValueId) : String := ", ".intercalate (vs.map valueText)

/-- A branch target with its arguments; without arguments there are no parentheses. -/
def branchText (b : IR.BlockId) (args : List ValueId) : String :=
  match args with
  | [] => "block" ++ toString b
  | args => "block" ++ toString b ++ "(" ++ valueList args ++ ")"

def CodeSig.text (sig : CodeSig) : String :=
  "(" ++ ", ".intercalate (sig.params.map MachineTy.text) ++ ")" ++
    (match sig.ret with
      | some ty => " -> " ++ ty.text
      | none => "") ++ " " ++ sig.conv.text

def predText : IR.Compare → String
  | .olt => "lt"
  | .ogt => "gt"
  | .ole => "le"

def withResult (dst : ValueId) (text : String) : String := valueText dst ++ " = " ++ text

def withOptionalResult (dst : Option ValueId) (text : String) : String :=
  match dst with
  | some dst => withResult dst text
  | none => text

def Instr.text : Instr → String
  | iconst dst n => withResult dst ("iconst.i64 " ++ toString n.toInt)
  | f64const dst x => withResult dst ("f64const " ++ doubleConstant x)
  | globalValue dst string =>
    withResult dst ("global_value." ++ MachineTy.pointer.text ++ " gv" ++ toString string)
  | stackAddr dst slot =>
    withResult dst ("stack_addr." ++ MachineTy.pointer.text ++ " ss" ++ toString slot)
  | load dst ty addr => withResult dst ("load." ++ ty.text ++ " " ++ valueText addr)
  | store value addr => "store " ++ valueList [value, addr]
  | arith dst op lhs rhs => withResult dst (op.mnemonic ++ " " ++ valueList [lhs, rhs])
  | fcmp dst pred lhs rhs =>
    withResult dst ("fcmp " ++ predText pred ++ " " ++ valueList [lhs, rhs])
  | call dst callee args =>
    withOptionalResult dst ("call fn" ++ toString callee ++ "(" ++ valueList args ++ ")")
  | funcAddr dst callee =>
    withResult dst ("func_addr." ++ MachineTy.pointer.text ++ " fn" ++ toString callee)
  | callIndirect dst sig addr args =>
    withOptionalResult dst
      ("call_indirect " ++ sig.text ++ ", " ++ valueText addr ++ "(" ++ valueList args ++ ")")
  | jump target args => "jump " ++ branchText target args
  | brif cond thenBlock thenArgs elseBlock elseArgs =>
    "brif " ++ valueText cond ++ ", " ++ branchText thenBlock thenArgs ++ ", " ++
      branchText elseBlock elseArgs
  | ret (some value) => "return " ++ valueText value
  | ret none => "return"

/-! ### Functions -/

/-- The header of a block; without parameters there are no parentheses. -/
def CodeBlock.header (index : Nat) (b : CodeBlock) : String :=
  match b.params with
  | [] => "block" ++ toString index ++ ":"
  | params =>
    "block" ++ toString index ++ "(" ++
      ", ".intercalate (params.map fun (v, ty) => valueText v ++ ": " ++ ty.text) ++ "):"

/-- The alignment of a stack slot: its size, where that is a machine word of two or more bytes. -/
def slotAlignment (ty : IR.Ty) : Nat :=
  match ty.size with
  | 0 | 1 => 1
  | 2 => 2
  | 4 => 4
  | _ => 8

def slotText (ty : IR.Ty) : String :=
  let base := "explicit_slot " ++ toString ty.size
  if slotAlignment ty = 1 then base else base ++ ", align = " ++ toString (slotAlignment ty)

/-- The lines of a function: each block's header and instructions. -/
def Routine.lines (r : Routine) : List String :=
  r.placedBlocks.flatMap fun (b, i) => b.header i :: b.body.map Instr.text

end TreeCompiler.Target
