/-
Types, values and operations of the intermediate representation.

A module holds functions, a function holds basic blocks, a block lists instructions.  Instructions,
blocks, functions and global strings are referred to by their position.
-/
import TreeCompiler.Decimal.Double

namespace TreeCompiler.IR

/-- The type of a value. -/
inductive Ty where
  | void | i1 | i32 | i64 | f64 | str | ptr
  deriving DecidableEq, Repr, Inhabited

namespace Ty

/-- The name a type has in the text of a module. -/
def text : Ty → String
  | void => "void"
  | i1 => "i1"
  | i32 => "i32"
  | i64 => "i64"
  | f64 => "f64"
  | str => "str"
  | ptr => "ptr"

/-- The size of a value in bytes. -/
def size : Ty → Nat
  | void => 0
  | i1 => 1
  | i32 => 4
  | i64 | f64 | str | ptr => 8

def isVoid (ty : Ty) : Bool := ty = void

def isFloat (ty : Ty) : Bool := ty = f64

def isInt : Ty → Bool
  | i1 | i32 | i64 => true
  | _ => false

end Ty

abbrev FuncId := Nat
abbrev BlockId := Nat
abbrev InstId := Nat
abbrev GlobalId := Nat

/-- A constant. -/
inductive Const where
  | int (value : Int64)
  | float (value : Double)
  deriving DecidableEq, Repr

def Const.ty : Const → Ty
  | int _ => .i64
  | float _ => .f64

/-- What an instruction can have as an operand. -/
inductive Value where
  | const (c : Const)
  /-- The result of an instruction of the same function. -/
  | inst (id : InstId)
  /-- An argument of the function, by position. -/
  | param (index : Nat)
  /-- The address of a string of the module. -/
  | global (id : GlobalId)
  deriving DecidableEq, Repr

namespace Value

def int (n : Int64) : Value := .const (.int n)

def float (x : Double) : Value := .const (.float x)

def asInst : Value → Option InstId
  | inst id => some id
  | _ => none

end Value

/-- The arithmetic operations. -/
inductive Arith where
  | fadd | fsub | fmul | sdiv
  deriving DecidableEq, Repr

namespace Arith

def mnemonic : Arith → String
  | fadd => "fadd"
  | fsub => "fsub"
  | fmul => "fmul"
  | sdiv => "sdiv"

def isFloat : Arith → Bool
  | sdiv => false
  | _ => true

end Arith

/-- The ordered comparisons of floating-point numbers. -/
inductive Compare where
  | olt | ogt | ole
  deriving DecidableEq, Repr

def Compare.mnemonic : Compare → String
  | olt => "olt"
  | ogt => "ogt"
  | ole => "ole"

/-- What an instruction does. -/
inductive Op where
  /-- Reserve a stack slot; the result is its address. -/
  | alloca (ty : Ty)
  | load (ty : Ty) (ptr : Value)
  /-- A volatile store must be neither moved nor removed. -/
  | store (value ptr : Value) (volatile : Bool)
  | arith (op : Arith) (lhs rhs : Value)
  | fcmp (pred : Compare) (lhs rhs : Value)
  | call (callee : FuncId) (args : List Value)
  /-- The value recorded for the block that control came from. -/
  | phi (incoming : List (Value × BlockId))
  | ret (value : Option Value)
  | br (target : BlockId)
  | condBr (cond : Value) (thenBlock elseBlock : BlockId)
  deriving DecidableEq, Repr

namespace Op

/-- The name of an operation. -/
def kind : Op → String
  | alloca .. => "alloca"
  | load .. => "load"
  | store .. => "store"
  | arith .. => "binary"
  | fcmp .. => "fcmp"
  | call .. => "call"
  | phi .. => "phi"
  | ret .. => "ret"
  | br .. => "br"
  | condBr .. => "cond_br"

/-- Whether the operation ends a block. -/
def isTerminator : Op → Bool
  | ret .. | br .. | condBr .. => true
  | _ => false

def isPhi : Op → Bool
  | phi .. => true
  | _ => false

/-- The operands from left to right.  The blocks of a phi are not operands. -/
def operands : Op → List Value
  | alloca _ => []
  | load _ ptr => [ptr]
  | store value ptr _ => [value, ptr]
  | arith _ lhs rhs => [lhs, rhs]
  | fcmp _ lhs rhs => [lhs, rhs]
  | call _ args => args
  | phi incoming => incoming.map (·.1)
  | ret value => value.toList
  | br _ => []
  | condBr cond _ _ => [cond]

/-- The blocks that control may go to next. -/
def successors : Op → List BlockId
  | br target => [target]
  | condBr _ thenBlock elseBlock => [thenBlock, elseBlock]
  | _ => []

end Op

/-- An instruction. -/
structure Inst where
  op : Op
  /-- The type of the result, `void` if there is none. -/
  ty : Ty
  name : Option String
  block : BlockId
  deriving DecidableEq, Repr

end TreeCompiler.IR
