/-
Target code: functions of blocks with parameters.

Where the intermediate representation has phis, a block of target code has parameters, and every
branch passes arguments for them.  Values are numbered in the order in which they are made.
-/
import TreeCompiler.IR.Basic
import TreeCompiler.Target.Platform

namespace TreeCompiler.Target

/-- The type of a machine value. -/
inductive MachineTy where
  | i8 | i32 | i64 | f64
  deriving DecidableEq, Repr

namespace MachineTy

def text : MachineTy → String
  | i8 => "i8"
  | i32 => "i32"
  | i64 => "i64"
  | f64 => "f64"

/-- The name of a type in error messages. -/
def title : MachineTy → String
  | i8 => "types::I8"
  | i32 => "types::I32"
  | i64 => "types::I64"
  | f64 => "types::F64"

/-- Addresses are 64 bits wide on every platform. -/
def pointer : MachineTy := i64

/-- The machine type of a value; nothing has type `void`.  A truth value takes a byte. -/
def ofTy? : IR.Ty → Option MachineTy
  | .void => none
  | .i1 => some i8
  | .i32 => some i32
  | .i64 => some i64
  | .f64 => some f64
  | .str | .ptr => some pointer

end MachineTy

/-- The machine types that go into a function and come out of it. -/
structure CodeSig where
  params : List MachineTy
  ret : Option MachineTy
  conv : CallConv
  deriving DecidableEq, Repr

namespace CodeSig

/-- What goes in or comes out, as error messages show it. -/
def listTitle (types : List MachineTy) : String :=
  let shown := types.map fun ty =>
    "AbiParam \x7b value_type: " ++ ty.title ++ ", purpose: Normal, extension: None \x7d"
  "[" ++ ", ".intercalate shown ++ "]"

/-- A signature as error messages show it. -/
def title (sig : CodeSig) : String :=
  "Signature \x7b params: " ++ listTitle sig.params ++ ", returns: " ++ listTitle sig.ret.toList ++
    ", call_conv: " ++ sig.conv.title ++ " \x7d"

end CodeSig

abbrev ValueId := Nat

/-- The number of a function in target code.  Functions are numbered as they are declared, and a
second declaration under a name means the function that has it. -/
abbrev FunctionNumber := Nat

/-- An instruction of target code.  `dst` is the value it makes. -/
inductive Instr where
  | iconst (dst : ValueId) (n : Int64)
  | f64const (dst : ValueId) (x : Double)
  /-- The address of a string, by its number in the function. -/
  | globalValue (dst : ValueId) (string : Nat)
  | stackAddr (dst : ValueId) (slot : Nat)
  | load (dst : ValueId) (ty : MachineTy) (addr : ValueId)
  | store (value addr : ValueId)
  | arith (dst : ValueId) (op : IR.Arith) (lhs rhs : ValueId)
  | fcmp (dst : ValueId) (pred : IR.Compare) (lhs rhs : ValueId)
  | call (dst : Option ValueId) (callee : FunctionNumber) (args : List ValueId)
  | funcAddr (dst : ValueId) (callee : FunctionNumber)
  /-- A call through an address, with the signature of this call. -/
  | callIndirect (dst : Option ValueId) (sig : CodeSig) (addr : ValueId) (args : List ValueId)
  | jump (target : IR.BlockId) (args : List ValueId)
  | brif (cond : ValueId) (thenBlock : IR.BlockId) (thenArgs : List ValueId)
      (elseBlock : IR.BlockId) (elseArgs : List ValueId)
  | ret (value : Option ValueId)
  deriving DecidableEq, Repr

/-- A block of target code. -/
structure CodeBlock where
  params : List (ValueId × MachineTy)
  body : List Instr
  deriving DecidableEq, Repr

/-- A function of target code. -/
structure Routine where
  sig : CodeSig
  /-- The types of the stack slots. -/
  slots : List IR.Ty
  blocks : List CodeBlock
  deriving DecidableEq, Repr

namespace Routine

/-- The blocks that have instructions, with their numbers.  A block without instructions has a
number but no place in the code. -/
def placedBlocks (r : Routine) : List (CodeBlock × IR.BlockId) :=
  r.blocks.zipIdx.filter fun (b, _) => !b.body.isEmpty

/-- The block in which the routine starts. -/
def entry (r : Routine) : IR.BlockId := (r.placedBlocks.head?.map (·.2)).getD 0

end Routine

end TreeCompiler.Target
